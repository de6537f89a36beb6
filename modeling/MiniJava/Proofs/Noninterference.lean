import MiniJava.Check.Program
import MiniJava.Proofs.Lowering.MethodMeaning
import MiniJava.Proofs.Tree.Subterms

namespace MiniJava

/-- A signature as callers see it. -/
def Signature.outline (m : Signature) : Signature := { m with locals := [] }

def Symbols.outline (t : Symbols) : Symbols :=
  { t with methods := t.methods.map Signature.outline }

/-- The local variables of the scope's own method stay. -/
def Scope.outline (s : Scope) : Scope := { s with symbols := s.symbols.outline }

def MethodDecl.outline (m : MethodDecl) : MethodDecl := { m with body := [] }

def Program.outline (p : Program) : Program :=
  { p with cls := { p.cls with methods := p.cls.methods.map MethodDecl.outline } }

theorem MethodDecl.signature_outline (m : MethodDecl) :
    m.outline.signature = m.signature.outline := rfl

/-- What is declared outside the bodies does not depend on them. -/
theorem Program.symbols_outline (p : Program) : p.outline.symbols = p.symbols.outline := by
  simp [symbols, outline, Symbols.outline, Function.comp_def, MethodDecl.signature_outline]

theorem Program.names_outline (p : Program) :
    p.outline.cls.methods.map (·.name.name) = p.cls.methods.map (·.name.name) := by
  simp [outline, Function.comp_def, MethodDecl.outline]

theorem Symbols.method?_outline (t : Symbols) (name : String) :
    t.outline.method? name = (t.method? name).map Signature.outline := by
  simp only [method?, outline, List.findRev?_eq_findRev?TR, List.findRev?TR, ← List.map_reverse,
    List.find?_map]
  rfl

@[simp] theorem Symbols.returnTy?_outline (t : Symbols) (name : String) :
    t.outline.returnTy? name = t.returnTy? name := by
  simp only [returnTy?, method?_outline, Option.map_map]
  rfl

namespace Scope

variable (s : Scope)

@[simp] theorem binding_outline (name : String) : s.outline.binding name = s.binding name := rfl

@[simp] theorem className?_outline (e : Expr) : s.outline.className? e = s.className? e := rfl

@[simp] theorem assignable_outline : s.outline.assignable = s.assignable := rfl

@[simp] theorem methodTyping_outline (cls method : String) :
    s.outline.methodTyping cls method = s.methodTyping cls method := by
  simp only [methodTyping, outline, Symbols.returnTy?_outline]
  rfl

/-- A call has the type that its target's signature gives it. -/
@[simp] theorem typing_outline (e : Expr) : s.outline.typing e = s.typing e := by
  induction e using Expr.children_induction with
  | step e ih =>
    cases e with
    | paren e pos => exact ih e (List.mem_singleton_self e)
    | index base idx pos =>
      have hbase := ih base (by simp [Expr.children])
      simp only [typing, hbase]
    | call recv method args pos =>
      have hrecv := ih recv (by simp [Expr.children])
      simp only [typing, hrecv, className?_outline, methodTyping_outline]
    | array elems pos =>
      cases elems with
      | nil => rfl
      | cons e es =>
        have he := ih e (by simp [Expr.children])
        simp only [typing, he]
    | int | bool | ident | this | binary | not | length | newObject | newArray => rfl

@[simp] theorem callTyping_outline (recv : Expr) (method : String) :
    s.outline.callTyping recv method = s.callTyping recv method := by
  simp only [callTyping, receiverClass, className?_outline, typing_outline, methodTyping_outline]

theorem target?_outline (recv : Expr) (method : String) :
    s.outline.target? recv method = (s.target? recv method).map Signature.outline := by
  simp only [target?, receiverClass, className?_outline, typing_outline]
  cases dispatch (s.className? recv) (s.typing recv) with
  | error t => rfl
  | ok cls =>
    have hname : s.outline.symbols.className = s.symbols.className := rfl
    have hmethod : s.outline.symbols.method? method =
        (s.symbols.method? method).map Signature.outline := s.symbols.method?_outline method
    simp only [hname, hmethod]
    split_ifs
    · rfl
    · rfl

@[simp] theorem refuse_outline (accepts : Ty → Bool) (fault : String → Fault) (e : Expr)
    (pos : Position) : s.outline.refuse accepts fault e pos = s.refuse accepts fault e pos := by
  simp only [refuse, typing_outline]

/-- Arguments are matched with the parameters alone. -/
theorem checkArguments_outline (m : Signature) (args : List Expr) (pos : Position) :
    s.outline.checkArguments m.outline args pos = s.checkArguments m args pos := by
  have hargument (index : Nat) (expected : Ty) (arg : Expr) :
      s.outline.checkArgument m.outline index expected arg =
        s.checkArgument m index expected arg := s.refuse_outline ..
  have htail (varargs : Parameter) (tail : List Expr) :
      s.outline.checkTail m.outline varargs tail = s.checkTail m varargs tail := by
    simp only [checkTail, typing_outline, hargument]
    rfl
  simp only [checkArguments, hargument, htail]
  rfl

@[simp] theorem checkCall_outline (recv : Expr) (method : Ident) (args : List Expr)
    (pos : Position) :
    s.outline.checkCall recv method args pos = s.checkCall recv method args pos := by
  have hreceiver : s.outline.receiverText? recv = s.receiverText? recv := by
    simp only [receiverText?, className?_outline, typing_outline]
  simp only [checkCall, callTyping_outline, target?_outline, hreceiver]
  cases s.target? recv method.name with
  | none => rfl
  | some m => simp only [Option.map_some, checkArguments_outline]

theorem checkAll_outline {es : List Expr} (h : ∀ e ∈ es, s.outline.check e = s.check e) :
    s.outline.checkAll es = s.checkAll es := by
  induction es with
  | nil => rfl
  | cons e es ih =>
    obtain ⟨he, hes⟩ := List.forall_mem_cons.1 h
    simp only [checkAll, he, ih hes]

theorem checkElements_outline (first : Option Ty) {es : List Expr}
    (h : ∀ e ∈ es, s.outline.check e = s.check e) :
    s.outline.checkElements first es = s.checkElements first es := by
  induction es generalizing first with
  | nil => rfl
  | cons e es ih =>
    obtain ⟨he, hes⟩ := List.forall_mem_cons.1 h
    have helement : s.outline.checkElement first e = s.checkElement first e := by
      cases first with
      | none => rfl
      | some ty => exact s.refuse_outline ..
    simp only [checkElements, he, helement, typing_outline, ih _ hes]

@[simp] theorem check_outline (e : Expr) : s.outline.check e = s.check e := by
  induction e using Expr.children_induction with
  | step e ih =>
    cases e with
    | int | bool | ident | this | newObject => rfl
    | paren e pos => exact ih e (List.mem_singleton_self e)
    | binary op left right pos =>
      have hl := ih left (by simp [Expr.children])
      have hr := ih right (by simp [Expr.children])
      simp only [check, hl, hr, checkOperand, refuse_outline]
    | not e pos =>
      have he := ih e (List.mem_singleton_self e)
      simp only [check, he, refuse_outline]
    | index base idx pos =>
      have hb := ih base (by simp [Expr.children])
      have hi := ih idx (by simp [Expr.children])
      simp only [check, hb, hi, checkBase, checkIndex, refuse_outline]
    | length base pos =>
      have hb := ih base (List.mem_singleton_self base)
      simp only [check, hb, checkBase, refuse_outline]
    | call recv method args pos =>
      have hrecv := ih recv (by simp [Expr.children])
      have hargs := s.checkAll_outline fun e he ↦ ih e (List.mem_cons_of_mem recv he)
      simp only [check, className?_outline, hrecv, hargs, checkCall_outline]
    | newArray size pos =>
      have hsize := ih size (List.mem_singleton_self size)
      simp only [check, hsize, checkIndex, refuse_outline]
    | array elems pos => exact s.checkElements_outline none ih

@[simp] theorem checkCondition_outline (cond : Expr) :
    s.outline.checkCondition cond = s.checkCondition cond := by
  simp only [checkCondition, check_outline, refuse_outline]

@[simp] theorem checkTarget_outline (target : Ident) (indexed : Bool) (value : Expr)
    (pos : Position) :
    s.outline.checkTarget target indexed value pos = s.checkTarget target indexed value pos := by
  simp only [checkTarget, checkStore, binding_outline, assignable_outline, refuse_outline]

@[simp] theorem checkReturn_outline (value : Option Expr) (pos : Position) :
    s.outline.checkReturn value pos = s.checkReturn value pos := by
  have hmethod : s.outline.method = s.method := rfl
  simp only [checkReturn, hmethod, check_outline, assignable_outline, refuse_outline]

mutual

theorem checkStmt_outline : ∀ stmt : Stmt, s.outline.checkStmt stmt = s.checkStmt stmt
  | .var _ => rfl
  | .block body _ => checkStmts_outline body
  | .ifThen cond body _ | .while cond body _ => by
    simp only [checkStmt, checkCondition_outline, checkStmt_outline body]
  | .ifElse cond body other _ => by
    simp only [checkStmt, checkCondition_outline, checkStmt_outline body, checkStmt_outline other]
  | .expr e _ => s.check_outline e
  | .assign target index value pos => by
    simp only [checkStmt, check_outline, checkIndex, refuse_outline, checkTarget_outline]
  | .return value pos => s.checkReturn_outline value pos

theorem checkStmts_outline : ∀ stmts : List Stmt,
    s.outline.checkStmts stmts = s.checkStmts stmts
  | [] => rfl
  | stmt :: rest => by
    simp only [checkStmts, checkStmt_outline stmt, checkStmts_outline rest]

end

end Scope

namespace Program

variable {p q : Program} {m : MethodDecl}

theorem check_eq_of_mem (hn : (p.cls.methods.map (·.name.name)).Nodup) (hm : m ∈ p.cls.methods) :
    m.check p.symbols =
      m.checkShape m.signature.ret ++
        Scope.checkStmts ⟨p.outline.symbols, some m.signature⟩ m.body := by
  have hstmts := (p.scope m).checkStmts_outline m.body
  rw [MethodDecl.check, method?_eq hn hm, symbols_outline]
  exact congrArg (m.checkShape m.signature.ret ++ ·) hstmts.symm

/-- Where programs differ at most in the bodies of other methods, a method has the same findings. -/
theorem check_eq_of_outline_eq (h : p.outline = q.outline)
    (hn : (p.cls.methods.map (·.name.name)).Nodup) (hp : m ∈ p.cls.methods)
    (hq : m ∈ q.cls.methods) : m.check p.symbols = m.check q.symbols := by
  have hn' : (q.cls.methods.map (·.name.name)).Nodup := by
    rwa [← names_outline, ← h, names_outline]
  rw [check_eq_of_mem hn hp, check_eq_of_mem hn' hq, h]

/-- In `int f(int y) { return y; }` and `int m() { return this.f(true) + x; }`, `m` has an argument
of the wrong type and an undeclared variable, whether `f` is as it stands or declares a local `x`
that it uses as a condition. -/
theorem check_eq_of_outline_eq_local :
    let pos := Position.point 1 1
    let int : TypeExpr := ⟨.int, false, false, pos⟩
    let x : Ident := ⟨"x", .point 2 2⟩
    let y : Ident := ⟨"y", pos⟩
    let method (name : String) (params : List ParamDecl) (body : List Stmt) : MethodDecl :=
      { isPublic := true, isStatic := false, ret := int, name := ⟨name, pos⟩, params, body, pos }
    let f (body : List Stmt) :=
      method "f" [⟨int, y, pos⟩] (body ++ [.return (some (.ident y)) pos])
    let call := Expr.call (.this pos) ⟨"f", pos⟩ [.bool true (.point 2 1)] pos
    let m := method "m" [] [.return (some (.binary (.arith .add) call (.ident x) pos)) pos]
    let program (body : List Stmt) : Program := ⟨[], ⟨⟨"A", pos⟩, none, [], [f body, m], pos⟩⟩
    let p := program []
    let q := program [.var ⟨int, x, pos⟩, .while (.ident x) (.block [] pos) pos]
    p.outline = q.outline ∧ (p.cls.methods.map (·.name.name)).Nodup ∧ m ∈ p.cls.methods ∧
      m ∈ q.cls.methods ∧ p.check ≠ q.check ∧
      m.check p.symbols = [.located (.argumentType "f" 0 "int" "boolean") (.point 2 1),
        .located (.undeclaredVariable "x") (.point 2 2)] ∧
      m.check p.symbols = m.check q.symbols := by
  intro pos int x y method f call m program p q
  have h : p.outline = q.outline := rfl
  have hn : (p.cls.methods.map (·.name.name)).Nodup := by decide +kernel +zetaReduce
  have hp : m ∈ p.cls.methods := by simp [p, program]
  have hq : m ∈ q.cls.methods := by simp [q, program]
  exact ⟨h, hn, hp, hq, by decide +kernel +zetaReduce, by decide +kernel +zetaReduce,
    check_eq_of_outline_eq h hn hp hq⟩

end Program

end MiniJava

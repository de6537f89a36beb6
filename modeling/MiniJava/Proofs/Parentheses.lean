import MiniJava.Proofs.Lowering.Blocks
import MiniJava.Proofs.StackSafety
import MiniJava.Proofs.Tree.Bare

namespace MiniJava

open Tac Lower

def Finding.unplaced : Finding → Finding
  | .located fault _ => .located fault .synthetic
  | f => f

namespace Scope

variable (s : Scope)

@[simp] theorem className?_bare (e : Expr) : s.className? e.bare = s.className? e := by
  induction e using Expr.children_induction with
  | step e ih =>
    cases e with
    | paren e pos => exact ih e (List.mem_singleton_self e)
    | int | bool | ident | this | binary | not | index | length | call | newObject | newArray
    | array => rfl

@[simp] theorem typing_bare (e : Expr) : s.typing e.bare = s.typing e := by
  induction e using Expr.children_induction with
  | step e ih =>
    cases e with
    | paren e pos => exact ih e (List.mem_singleton_self e)
    | index base idx pos =>
      have hbase := ih base (by simp [Expr.children])
      simp only [Expr.bare, typing, hbase]
    | call recv method args pos =>
      have hrecv := ih recv (by simp [Expr.children])
      simp only [Expr.bare, typing, hrecv, className?_bare]
    | array elems pos =>
      cases elems with
      | nil => rfl
      | cons e es =>
        have he := ih e (by simp [Expr.children])
        simp only [Expr.bare, Expr.bareAll, typing, he]
    | int | bool | ident | this | binary | not | length | newObject | newArray => rfl

@[simp] theorem valType_bare (e : Expr) (hint : Option ValType) :
    s.valType e.bare hint = s.valType e hint := by
  rw [valType, typing_bare, valType]

@[simp] theorem callTyping_bare (recv : Expr) (method : String) :
    s.callTyping recv.bare method = s.callTyping recv method := by
  simp only [callTyping, receiverClass, className?_bare, typing_bare]

@[simp] theorem target?_bare (recv : Expr) (method : String) :
    s.target? recv.bare method = s.target? recv method := by
  simp only [target?, receiverClass, className?_bare, typing_bare]

theorem packed?_bare (m : Signature) (args : List Expr) :
    s.packed? m (args.map Expr.bare) = s.packed? m args := by
  simp only [packed?, List.length_map, List.getLast?_map, Option.any_map, typing_bare]

theorem lowerCallWith_bare (recv : Expr) (method : Ident) (args : List Expr)
    (hint : Option ValType) :
    s.lowerCallWith recv.bare method (args.map Expr.bare) hint =
      s.lowerCallWith recv method args hint := by
  funext loweredRecv loweredArgs
  have hargs (target : Option Signature) :
      s.lowerArgs target (args.map Expr.bare) loweredArgs =
        s.lowerArgs target args loweredArgs := by
    simp only [lowerArgs, packed?_bare]
  simp only [lowerCallWith, callTyping_bare, target?_bare, className?_bare, hargs]

theorem literalElement_bare (elems : List Expr) :
    s.literalElement (elems.map Expr.bare) = s.literalElement elems := by
  cases elems with
  | nil => rfl
  | cons e es => exact s.valType_bare e none

theorem lowerEach_bare {es : List Expr} (h : ∀ e ∈ es, s.lower e.bare = s.lower e) :
    s.lowerEach (es.map Expr.bare) = s.lowerEach es := by
  rw [lowerEach_eq_map, lowerEach_eq_map, List.map_map]
  exact List.map_congr_left h

theorem lower_bare (e : Expr) : s.lower e.bare = s.lower e := by
  induction e using Expr.children_induction with
  | step e ih =>
    funext hint
    cases e with
    | paren e pos => exact congrFun (ih e (List.mem_singleton_self e)) hint
    | binary op left right pos =>
      have hl := ih left (by simp [Expr.children])
      have hr := ih right (by simp [Expr.children])
      cases op with
      | arith | less | and => simp only [Expr.bare, lower, hl, hr]
    | not e pos | length e pos | newArray e pos =>
      have he := ih e (List.mem_singleton_self e)
      simp only [Expr.bare, lower, he]
    | index base idx pos =>
      have hb := ih base (by simp [Expr.children])
      have hi := ih idx (by simp [Expr.children])
      simp only [Expr.bare, lower, hb, hi]
    | call recv method args pos =>
      have hrecv := ih recv (by simp [Expr.children])
      have hargs := s.lowerEach_bare fun e he ↦ ih e (List.mem_cons_of_mem recv he)
      simp only [Expr.bare, Expr.bareAll_eq_map, lower, lowerCallWith_bare, hrecv, hargs]
    | array elems pos =>
      have helems : s.lowerEach (elems.map Expr.bare) = s.lowerEach elems := s.lowerEach_bare ih
      simp only [Expr.bare, Expr.bareAll_eq_map, lower, literalElement_bare, List.length_map,
        helems]
    | int | bool | ident | this | newObject => rfl

theorem lowerCall_bare (recv : Expr) (method : Ident) (args : List Expr)
    (hint : Option ValType) :
    s.lowerCall recv.bare method (args.map Expr.bare) hint = s.lowerCall recv method args hint := by
  simp only [lowerCall, lowerCallWith_bare, lower_bare,
    s.lowerEach_bare fun e _ ↦ s.lower_bare e]

theorem lowerCond_bare (cond : Expr) : s.lowerCond cond.bare = s.lowerCond cond := by
  let value (x : Option ValType → Lower Operand) : Lower Cond :=
    do return .value (← x (some .bool))
  induction cond using Expr.children_induction with
  | step cond ih =>
    cases cond with
    | paren e pos => exact ih e (List.mem_singleton_self e)
    | binary op left right pos =>
      cases op with
      | less => simp only [Expr.bare, lowerCond, Expr.unparen, lower_bare]
      | arith | and => exact congrArg value (s.lower_bare (.binary _ left right pos))
    | int | bool | ident | this | not | index | length | call | newObject | newArray | array =>
      exact congrArg value (s.lower_bare _)

theorem lowerEffect_bare (e : Expr) : s.lowerEffect e.bare = s.lowerEffect e := by
  let drop (x : Option ValType → Lower Operand) : Lower Unit := do let _ ← x none
  induction e using Expr.children_induction with
  | step e ih =>
    cases e with
    | paren e pos => exact ih e (List.mem_singleton_self e)
    | call recv method args pos =>
      simp only [Expr.bare, Expr.bareAll_eq_map, lowerEffect, Expr.unparen, lowerCall_bare]
    | int | bool | ident | this | binary | not | index | length | newObject | newArray | array =>
      exact congrArg drop (s.lower_bare _)

theorem lowerAssign_bare (target : Ident) (index : Option Expr) (value : Expr) :
    s.lowerAssign target (index.map Expr.bare) value.bare = s.lowerAssign target index value := by
  have hvar (dest : Operand) :
      s.assignVar dest (index.map Expr.bare) value.bare = s.assignVar dest index value := by
    cases index with
    | none => simp only [Option.map_none, assignVar, lower_bare]
    | some i => simp only [Option.map_some, assignVar, storeElement, lower_bare]
  have hfield (name : String) (ty : ValType) :
      s.assignField name ty (index.map Expr.bare) value.bare =
        s.assignField name ty index value := by
    cases index with
    | none => simp only [Option.map_none, assignField, lower_bare]
    | some i => simp only [Option.map_some, assignField, storeElement, lower_bare]
  simp only [lowerAssign, hvar, hfield, valType_bare, Option.isSome_map]

theorem lowerReturn_bare (value : Option Expr) :
    s.lowerReturn (value.map Expr.bare) = s.lowerReturn value := by
  cases value with
  | none => rfl
  | some e => simp only [Option.map_some, lowerReturn, lower_bare]

mutual

theorem lowerStmt_bare : ∀ stmt, s.lowerStmt (Stmt.bare stmt) = s.lowerStmt stmt
  | .var _ => rfl
  | .block body _ => lowerStmts_bare body
  | .ifThen cond body _ => by
    simp only [Stmt.bare, lowerStmt, lowerIf, lowerCond_bare, lowerStmt_bare body]
  | .ifElse cond body other _ => by
    simp only [Stmt.bare, lowerStmt, lowerIf, lowerCond_bare, lowerStmt_bare body,
      lowerStmt_bare other]
  | .while cond body _ => by
    simp only [Stmt.bare, lowerStmt, lowerWhile, lowerCond_bare, lowerStmt_bare body]
  | .expr e _ => s.lowerEffect_bare e
  | .assign target index value _ => s.lowerAssign_bare target index value
  | .return value _ => s.lowerReturn_bare value

theorem lowerStmts_bare : ∀ stmts, s.lowerStmts (Stmt.bareAll stmts) = s.lowerStmts stmts
  | [] => rfl
  | stmt :: rest => by
    simp only [Stmt.bareAll, lowerStmts, lowerStmt_bare stmt, lowerStmts_bare rest]

end

end Scope

theorem Symbols.lowerMethods_bare (t : Symbols) (n : Numbering) (ms : List MethodDecl) :
    t.lowerMethods n (ms.map MethodDecl.bare) = t.lowerMethods n ms := by
  have hlower (m : MethodDecl) : m.bare.lower t = m.lower t := Scope.lowerStmts_bare _ m.body
  induction ms generalizing n with
  | nil => rfl
  | cons m ms ih =>
    simp only [List.map_cons, lowerMethods, hlower, ih]
    rfl

theorem Program.lower_bare (p : Program) : p.bare.lower = p.lower := by
  have hmethods := p.symbols.lowerMethods_bare {} p.cls.methods
  simp only [lower, symbols_bare]
  rw [← hmethods]
  rfl

namespace Scope

variable (s : Scope)

theorem unplaced_refuse_bare (accepts : Ty → Bool) (fault : String → Fault) (e : Expr)
    (pos pos' : Position) :
    (s.refuse accepts fault e.bare pos).map Finding.unplaced =
      (s.refuse accepts fault e pos').map Finding.unplaced := by
  rw [refuse, typing_bare, refuse]
  cases (s.typing e).violation accepts with
  | none => rfl
  | some ty => rfl

theorem unplaced_checkArgument_bare (m : Signature) (index : Nat) (expected : Ty) (arg : Expr) :
    (s.checkArgument m index expected arg.bare).map Finding.unplaced =
      (s.checkArgument m index expected arg).map Finding.unplaced := s.unplaced_refuse_bare ..

theorem unplaced_checkElement_bare (first : Option Ty) (e : Expr) :
    (s.checkElement first e.bare).map Finding.unplaced =
      (s.checkElement first e).map Finding.unplaced := by
  cases first with
  | none => rfl
  | some ty => exact s.unplaced_refuse_bare ..

theorem unplaced_checkTail_bare (m : Signature) (varargs : Parameter) (tail : List Expr) :
    (s.checkTail m varargs (tail.map Expr.bare)).map Finding.unplaced =
      (s.checkTail m varargs tail).map Finding.unplaced := by
  have htypings : (tail.map Expr.bare).map (s.typing ·) = tail.map (s.typing ·) := by
    simp only [List.map_map, Function.comp_def, typing_bare]
  unfold checkTail
  rw [htypings]
  split
  · rfl
  · cases varargs.symbol.ty.element? with
    | none => rfl
    | some element =>
      simp only [List.zipIdx_map, List.flatMap_map, List.map_flatMap, Prod.map, id_eq,
        unplaced_checkArgument_bare]

theorem unplaced_checkArguments_bare (m : Signature) (args : List Expr) (pos : Position) :
    (s.checkArguments m (args.map Expr.bare) pos).map Finding.unplaced =
      (s.checkArguments m args pos).map Finding.unplaced := by
  unfold checkArguments
  rw [List.length_map]
  split
  · rfl
  · simp only [List.map_append, List.zip_map_right, List.zipIdx_map, List.flatMap_map,
      List.map_flatMap, Prod.map, id_eq, unplaced_checkArgument_bare, ← List.map_drop]
    refine congrArg (_ ++ ·) ?_
    cases m.varargs? with
    | none => rfl
    | some varargs => exact s.unplaced_checkTail_bare ..

theorem unplaced_checkCall_bare (recv : Expr) (method : Ident) (args : List Expr)
    (pos : Position) :
    (s.checkCall recv.bare method (args.map Expr.bare) pos).map Finding.unplaced =
      (s.checkCall recv method args pos).map Finding.unplaced := by
  have hreceiver : s.receiverText? recv.bare = s.receiverText? recv := by
    simp only [receiverText?, className?_bare, typing_bare]
  unfold checkCall
  rw [callTyping_bare, target?_bare, hreceiver]
  split
  · rfl
  · cases s.target? recv method.name with
    | none => rfl
    | some m => exact s.unplaced_checkArguments_bare m args pos

theorem unplaced_checkAll_bare {es : List Expr}
    (h : ∀ e ∈ es, (s.check e.bare).map Finding.unplaced = (s.check e).map Finding.unplaced) :
    (s.checkAll (es.map Expr.bare)).map Finding.unplaced =
      (s.checkAll es).map Finding.unplaced := by
  induction es with
  | nil => rfl
  | cons e es ih =>
    have ⟨he, hes⟩ := List.forall_mem_cons.1 h
    simp only [List.map_cons, checkAll, List.map_append, he, ih hes]

theorem unplaced_checkElements_bare (first : Option Ty) {es : List Expr}
    (h : ∀ e ∈ es, (s.check e.bare).map Finding.unplaced = (s.check e).map Finding.unplaced) :
    (s.checkElements first (es.map Expr.bare)).map Finding.unplaced =
      (s.checkElements first es).map Finding.unplaced := by
  induction es generalizing first with
  | nil => rfl
  | cons e es ih =>
    have ⟨he, hes⟩ := List.forall_mem_cons.1 h
    simp only [List.map_cons, checkElements, List.map_append, he, unplaced_checkElement_bare,
      typing_bare, ih _ hes]

/-- Parentheses move findings but neither make, hide nor reorder any. -/
theorem unplaced_check_bare (e : Expr) :
    (s.check e.bare).map Finding.unplaced = (s.check e).map Finding.unplaced := by
  have hrefuse := s.unplaced_refuse_bare
  induction e using Expr.children_induction with
  | step e ih =>
    cases e with
    | paren e pos => exact ih e (List.mem_singleton_self e)
    | binary op left right pos =>
      have hl := ih left (by simp [Expr.children])
      have hr := ih right (by simp [Expr.children])
      simp only [Expr.bare, check, List.map_append, hl, hr, checkOperand,
        hrefuse _ _ left _ left.pos, hrefuse _ _ right _ right.pos]
    | not e pos =>
      have he := ih e (List.mem_singleton_self e)
      simp only [Expr.bare, check, List.map_append, he, hrefuse _ _ e pos pos]
    | index base idx pos =>
      have hb := ih base (by simp [Expr.children])
      have hi := ih idx (by simp [Expr.children])
      simp only [Expr.bare, check, List.map_append, hb, hi, checkBase, checkIndex,
        hrefuse _ _ base _ base.pos, hrefuse _ _ idx _ idx.pos]
    | length base pos =>
      have hb := ih base (List.mem_singleton_self base)
      simp only [Expr.bare, check, List.map_append, hb, checkBase, hrefuse _ _ base _ base.pos]
    | call recv method args pos =>
      have hrecv := ih recv (by simp [Expr.children])
      have hargs := s.unplaced_checkAll_bare fun e he ↦ ih e (List.mem_cons_of_mem recv he)
      simp only [Expr.bare, Expr.bareAll_eq_map, check, List.map_append, className?_bare, hargs,
        unplaced_checkCall_bare]
      split
      · rfl
      · rw [hrecv]
    | newArray size pos =>
      have hsize := ih size (List.mem_singleton_self size)
      simp only [Expr.bare, check, List.map_append, hsize, checkIndex,
        hrefuse _ _ size _ size.pos]
    | array elems pos =>
      simp only [Expr.bare, Expr.bareAll_eq_map, check]
      exact s.unplaced_checkElements_bare none ih
    | int | bool | ident | this | newObject => rfl

theorem unplaced_checkCondition_bare (cond : Expr) :
    (s.checkCondition cond.bare).map Finding.unplaced =
      (s.checkCondition cond).map Finding.unplaced := by
  simp only [checkCondition, List.map_append, unplaced_check_bare,
    s.unplaced_refuse_bare _ _ cond _ cond.pos]

theorem unplaced_checkTarget_bare (target : Ident) (indexed : Bool) (value : Expr)
    (pos : Position) :
    (s.checkTarget target indexed value.bare pos).map Finding.unplaced =
      (s.checkTarget target indexed value pos).map Finding.unplaced := by
  have hstore (ty : Ty) :
      (s.checkStore target indexed ty value.bare pos).map Finding.unplaced =
        (s.checkStore target indexed ty value pos).map Finding.unplaced := by
    unfold checkStore
    split
    · cases ty.element? with
      | none => rfl
      | some element => exact s.unplaced_refuse_bare ..
    · exact s.unplaced_refuse_bare ..
  unfold checkTarget
  cases s.binding target.name with
  | param i p => exact hstore _
  | «local» v | field v => exact hstore _
  | cls | inherited | undeclared => rfl

theorem unplaced_checkReturn_bare (value : Option Expr) (pos : Position) :
    (s.checkReturn (value.map Expr.bare) pos).map Finding.unplaced =
      (s.checkReturn value pos).map Finding.unplaced := by
  unfold checkReturn
  cases s.method with
  | none => rfl
  | some m =>
    cases value with
    | none => rfl
    | some e =>
      simp only [Option.map_some, List.map_append, unplaced_check_bare]
      split
      · rfl
      · rw [s.unplaced_refuse_bare _ _ e pos pos]

mutual

theorem unplaced_checkStmt_bare : ∀ stmt : Stmt,
    (s.checkStmt stmt.bare).map Finding.unplaced = (s.checkStmt stmt).map Finding.unplaced
  | .var _ => rfl
  | .block body _ => unplaced_checkStmts_bare body
  | .ifThen cond body _ | .while cond body _ => by
    simp only [Stmt.bare, checkStmt, List.map_append, unplaced_checkCondition_bare,
      unplaced_checkStmt_bare body]
  | .ifElse cond body other _ => by
    simp only [Stmt.bare, checkStmt, List.map_append, unplaced_checkCondition_bare,
      unplaced_checkStmt_bare body, unplaced_checkStmt_bare other]
  | .expr e _ => s.unplaced_check_bare e
  | .assign target index value pos => by
    simp only [Stmt.bare, checkStmt, List.map_append, unplaced_check_bare, Option.isSome_map,
      unplaced_checkTarget_bare]
    cases index with
    | none => rfl
    | some i =>
      simp only [Option.map_some, Option.elim_some, List.map_append, unplaced_check_bare,
        checkIndex, s.unplaced_refuse_bare _ _ i _ i.pos]
  | .return value pos => s.unplaced_checkReturn_bare value pos

theorem unplaced_checkStmts_bare : ∀ stmts : List Stmt,
    (s.checkStmts (Stmt.bareAll stmts)).map Finding.unplaced =
      (s.checkStmts stmts).map Finding.unplaced
  | [] => rfl
  | stmt :: rest => by
    simp only [Stmt.bareAll, checkStmts, List.map_append, unplaced_checkStmt_bare stmt,
      unplaced_checkStmts_bare rest]

end

end Scope

theorem MethodDecl.unplaced_check_bare (m : MethodDecl) (t : Symbols) :
    (m.bare.check t).map Finding.unplaced = (m.check t).map Finding.unplaced := by
  have hlast : m.bare.body.getLast?.any Stmt.isReturn = m.body.getLast?.any Stmt.isReturn := by
    simp only [bare, Stmt.bareAll_eq_map, List.getLast?_map, Option.any_map, Stmt.isReturn_bare]
  have hshape (ret : Ty) : m.bare.checkShape ret = m.checkShape ret := by
    unfold checkShape
    rw [hlast]
    rfl
  have hname : m.bare.name = m.name := rfl
  have hbody : m.bare.body = Stmt.bareAll m.body := rfl
  unfold check
  rw [hname, hbody]
  cases t.method? m.name.name with
  | none => rfl
  | some sig => simp only [List.map_append, hshape, Scope.unplaced_checkStmts_bare]

theorem Program.unplaced_check_bare (p : Program) :
    p.bare.check.map Finding.unplaced = p.check.map Finding.unplaced := by
  have hmethods : p.bare.cls.methods = p.cls.methods.map MethodDecl.bare := rfl
  simp only [check, symbols_bare, hmethods, List.map_flatMap, List.flatMap_map,
    MethodDecl.unplaced_check_bare]

/-- Programs that differ in parentheses alone have the same code, the same texts and the same
findings, but for the places of those from the check. -/
theorem Program.compile_eq_of_bare_eq {p q : Program} (h : p.bare = q.bare) (options : Options) :
    p.lower = q.lower ∧
    p.check.map Finding.unplaced = q.check.map Finding.unplaced ∧
    (p.compile options).text = (q.compile options).text ∧
    (p.compile options).jasmin = (q.compile options).jasmin ∧
    ∃ generated : List Finding,
      (p.compile options).reports = ⟨(p.check ++ generated).map Report.ofFinding⟩ ∧
      (q.compile options).reports = ⟨(q.check ++ generated).map Report.ofFinding⟩ := by
  have hlower : p.lower = q.lower := by rw [← p.lower_bare, h, q.lower_bare]
  have hcheck : p.check.map Finding.unplaced = q.check.map Finding.unplaced := by
    rw [← p.unplaced_check_bare, h, q.unplaced_check_bare]
  have hstop : (Reports.addFindings {} q.check).hasErrors =
      (Reports.addFindings {} p.check).hasErrors := by
    have hempty := congrArg List.isEmpty hcheck
    simp only [List.isEmpty_map] at hempty
    rw [Reports.hasErrors_addFindings, Reports.hasErrors_addFindings, hempty]
  refine ⟨hlower, hcheck, ?_⟩
  simp only [compile, hstop, ← hlower]
  cases (Reports.addFindings {} p.check).hasErrors && !options.generateAnyway with
  | true =>
    simp only [if_true, true_and]
    exact ⟨[], by simp [Reports.addFindings]⟩
  | false =>
    simp only [Bool.false_eq_true, if_false]
    cases options.emitJasmin with
    | true =>
      simp only [if_true, true_and]
      refine ⟨p.lower.2 ++ (Jasmin.assemble p.lower.1 options.indent).2, ?_⟩
      simp [Reports.addFindings]
    | false =>
      simp only [Bool.false_eq_true, if_false, true_and]
      exact ⟨p.lower.2, by simp [Reports.addFindings]⟩

/-- `boolean f() { if ((1 < 2)) ((A).f()); while ((3)) { } return (this.f()); }` in a class `A`, and
the same without parentheses. The condition of the loop is refused, at different places. -/
theorem Program.compile_eq_of_bare_eq_nested :
    let pos := Position.point 1 1
    let f : Ident := ⟨"f", pos⟩
    let program (wrap : Expr → Expr) : Program :=
      let test := Expr.binary .less (.int 1 pos) (.int 2 pos) pos
      let static := Expr.call (wrap (.ident ⟨"A", pos⟩)) f [] pos
      let m : MethodDecl :=
        { isPublic := true, isStatic := false, ret := ⟨.boolean, false, false, pos⟩, name := f
          params := [], pos
          body := [.ifThen (wrap test) (.expr (wrap static) pos) pos,
            .while (wrap (.int 3 pos)) (.block [] pos) pos,
            .return (some (wrap (.call (.this pos) f [] pos))) pos] }
      ⟨[], ⟨⟨"A", pos⟩, none, [], [m], pos⟩⟩
    let p := program fun e ↦ .paren e (.point 1 2)
    let q := program id
    p.bare = q.bare ∧ p.check ≠ q.check ∧
      p.check.map Finding.unplaced = q.check.map Finding.unplaced ∧
      (p.compile { generateAnyway := true }).jasmin =
        (q.compile { generateAnyway := true }).jasmin := by
  intro pos f program p q
  have h : p.bare = q.bare := rfl
  have hcheck : p.check ≠ q.check := by decide +kernel +zetaReduce
  obtain ⟨-, hunplaced, -, hjasmin, -⟩ := compile_eq_of_bare_eq h { generateAnyway := true }
  exact ⟨h, hcheck, hunplaced, hjasmin⟩

end MiniJava

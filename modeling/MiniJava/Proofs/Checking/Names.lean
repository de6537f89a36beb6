import Mathlib.Tactic.MkIffOfInductiveProp
import MiniJava.Proofs.Checking.Rules

namespace MiniJava

def Fault.IsName : Fault → Prop
  | .undeclaredVariable _ | .unknownClass _ => True
  | .unresolvedCall .. | .operandType .. | .notAnArray _ | .indexNotInt _ | .mixedElements ..
  | .conditionNotBoolean _ | .unassignable .. | .returnType .. | .argumentType ..
  | .argumentCount .. | .mainNotPublicStatic | .mainNotVoid | .mainParamCount | .mainParamType
  | .missingReturn _ | .returnInVoid _ | .unsupported _ => False

def Finding.IsName : Finding → Prop
  | .located fault _ => fault.IsName
  | .missingSlot .. | .underflow _ => False

def NameFree (fs : List Finding) : Prop := ∀ f ∈ fs, ¬ f.IsName

section

variable {a b : List Finding} {fault : Fault} {pos : Position}

@[simp] theorem nameFree_nil : NameFree [] := nofun

@[simp] theorem nameFree_append : NameFree (a ++ b) ↔ NameFree a ∧ NameFree b :=
  List.forall_mem_append

@[simp] theorem nameFree_located : NameFree [.located fault pos] ↔ ¬ fault.IsName :=
  List.forall_mem_singleton

@[simp] theorem nameFree_flatMap {α : Type} {xs : List α} {fs : α → List Finding} :
    NameFree (xs.flatMap fs) ↔ ∀ x ∈ xs, NameFree (fs x) := by
  simp only [NameFree, List.mem_flatMap, forall_exists_index, and_imp]
  exact ⟨fun h x hx f hf ↦ h f x hx hf, fun h f x hx hf ↦ h x hx f hf⟩

theorem nameFree_ite {c : Prop} [Decidable c] (ha : NameFree a) (hb : NameFree b) :
    NameFree (if c then a else b) := by
  split
  · exact ha
  · exact hb

end

theorem Expr.everywhere_iff {P : Expr → Prop} {e : Expr} :
    e.Everywhere P ↔ P e ∧ ∀ c ∈ e.children, c.Everywhere P :=
  ⟨fun h ↦ ⟨h.here, h.inside⟩, fun h ↦ .intro e h.1 h.2⟩

namespace Stmt

/-- The expressions that a statement uses, those of the statements inside it apart. -/
@[simp] def uses : Stmt → List Expr
  | .ifThen cond _ _ | .ifElse cond _ _ _ | .while cond _ _ => [cond]
  | .expr e _ => [e]
  | .assign _ index value _ => index.toList ++ [value]
  | .return value _ => value.toList
  | .var _ | .block .. => []

@[simp] def target? : Stmt → Option Ident
  | .assign target .. => some target
  | .var _ | .block .. | .ifThen .. | .ifElse .. | .while .. | .expr .. | .return .. => none

mutual

theorem inner_induction_one {motive : Stmt → Prop}
    (step : ∀ stmt, (∀ x ∈ stmt.inner, motive x) → motive stmt) : ∀ stmt, motive stmt
  | .var _ | .expr .. | .assign .. | .return .. => step _ nofun
  | .block body _ => step _ (inner_induction_each step body)
  | .ifThen _ body _ | .while _ body _ =>
    step _ (List.forall_mem_singleton.2 (inner_induction_one step body))
  | .ifElse _ body other _ =>
    step _ (forall_mem_two.2 ⟨inner_induction_one step body, inner_induction_one step other⟩)

theorem inner_induction_each {motive : Stmt → Prop}
    (step : ∀ stmt, (∀ x ∈ stmt.inner, motive x) → motive stmt) :
    ∀ stmts : List Stmt, ∀ x ∈ stmts, motive x
  | [] => nofun
  | stmt :: rest => List.forall_mem_cons.2
    ⟨inner_induction_one step stmt, inner_induction_each step rest⟩

end

/-- What comes down to each statement and those directly inside it comes down to all statements. -/
theorem forall_within_of_step {F P : Stmt → Prop}
    (step : ∀ stmt, F stmt ↔ P stmt ∧ ∀ x ∈ stmt.inner, F x) (stmt : Stmt) :
    F stmt ↔ ∀ x, Within x stmt → P x := by
  induction stmt using inner_induction_one with
  | step stmt ih =>
    rw [step, Scope.forall_within_iff]
    exact and_congr_right' (forall₂_congr ih)

end Stmt

namespace Scope

section

variable (s : Scope)

/-- The name that an expression itself uses, if it uses one, is declared. -/
@[simp] def Declared : Expr → Prop
  | .ident id => s.binding id.name ≠ .undeclared
  | .newObject cls _ => s.symbols.isClassName cls.name
  | .int .. | .bool .. | .this _ | .binary .. | .not .. | .paren .. | .index .. | .length ..
  | .call .. | .newArray .. | .array .. => True

@[mk_iff]
structure NamesStmt (P : Binding → Prop) (stmt : Stmt) : Prop where
  target : ∀ id ∈ stmt.target?, P (s.binding id.name)
  uses : ∀ e ∈ stmt.uses, e.Everywhere s.Declared

end

variable {s : Scope} {e : Expr} {pos : Position} {m : Signature}

theorem nameFree_refuse {accepts : Ty → Bool} {fault : String → Fault}
    (h : ∀ text, ¬ (fault text).IsName) : NameFree (s.refuse accepts fault e pos) := by
  unfold refuse
  split
  · exact nameFree_located.2 (h _)
  · exact nameFree_nil

@[simp] theorem nameFree_checkOperand {op : BinOp} : NameFree (s.checkOperand op e) :=
  nameFree_refuse fun _ ↦ id

@[simp] theorem nameFree_checkBase : NameFree (s.checkBase e) := nameFree_refuse fun _ ↦ id

@[simp] theorem nameFree_checkIndex : NameFree (s.checkIndex e) := nameFree_refuse fun _ ↦ id

@[simp] theorem nameFree_checkElement {first : Option Ty} : NameFree (s.checkElement first e) := by
  cases first with
  | none => exact nameFree_nil
  | some ty => exact nameFree_refuse fun _ ↦ id

theorem nameFree_checkTail {varargs : Parameter} {tail : List Expr} :
    NameFree (s.checkTail m varargs tail) := by
  unfold checkTail
  split
  · exact nameFree_nil
  · split
    · exact nameFree_flatMap.2 fun _ _ ↦ nameFree_refuse fun _ ↦ id
    · exact nameFree_nil

theorem nameFree_checkArguments {args : List Expr} : NameFree (s.checkArguments m args pos) := by
  unfold checkArguments
  split
  · exact nameFree_located.2 id
  · refine nameFree_append.2 ⟨nameFree_flatMap.2 fun _ _ ↦ nameFree_refuse fun _ ↦ id, ?_⟩
    split
    · exact nameFree_checkTail
    · exact nameFree_nil

@[simp] theorem nameFree_checkCall {recv : Expr} {method : Ident} {args : List Expr} :
    NameFree (s.checkCall recv method args pos) := by
  unfold checkCall
  split
  · split
    · exact nameFree_located.2 id
    · exact nameFree_nil
  · split
    · exact nameFree_checkArguments
    · exact nameFree_nil

theorem nameFree_checkAll {es : List Expr} :
    NameFree (s.checkAll es) ↔ ∀ e ∈ es, NameFree (s.check e) := by
  rw [checkAll_eq_flatMap, nameFree_flatMap]

theorem nameFree_checkElements {first : Option Ty} {es : List Expr} :
    NameFree (s.checkElements first es) ↔ ∀ e ∈ es, NameFree (s.check e) := by
  induction es generalizing first with
  | nil => simp [checkElements]
  | cons e es ih => simp [checkElements, ih]

/-- The names that the checker reports in an expression are its own and those of its parts. -/
theorem nameFree_check_iff_children :
    NameFree (s.check e) ↔ s.Declared e ∧ ∀ c ∈ e.children, NameFree (s.check c) := by
  cases e with
  | int | bool | this => simp [check, Expr.children]
  | ident id =>
    simp only [check, checkIdent, Expr.children]
    split
    · next h => simp [h, Fault.IsName]
    · next h => simp [h]
  | newObject cls pos =>
    simp only [check, Expr.children]
    split
    · next h => simp [h]
    · next h => simp [h, Fault.IsName]
  | not e pos =>
    have hrefuse : NameFree (s.refuse (· == .boolean) (.operandType "!" Ty.boolean.text) e pos) :=
      nameFree_refuse fun _ ↦ id
    simp [check, Expr.children, hrefuse]
  | binary op left right pos | index left right pos =>
    simp [check, Expr.children]
  | paren e pos | length e pos | newArray e pos => simp [check, Expr.children]
  | call recv method args pos =>
    simp only [check, Expr.children, nameFree_append, nameFree_checkAll,
      nameFree_checkCall, and_true, List.forall_mem_cons]
    cases hnamed : s.className? recv with
    | none => simp
    | some cls => simp [check_of_named hnamed]
  | array elems pos => simp [check, Expr.children, nameFree_checkElements]

/-- The checker reports no name in an expression just if all names in it are declared. -/
theorem nameFree_check_iff : NameFree (s.check e) ↔ e.Everywhere s.Declared := by
  induction e using Expr.children_induction with
  | step e ih =>
    rw [nameFree_check_iff_children, Expr.everywhere_iff]
    exact and_congr_right' (forall₂_congr ih)

section

variable {target : Ident} {index : Option Expr} {value : Expr}

theorem nameFree_checkCondition :
    NameFree (s.checkCondition e) ↔ e.Everywhere s.Declared := by
  have hrefuse : NameFree (s.refuse (· == .boolean) .conditionNotBoolean e e.pos) :=
    nameFree_refuse fun _ ↦ id
  simp [checkCondition, hrefuse, nameFree_check_iff]

theorem nameFree_checkStore {indexed : Bool} {ty : Ty} :
    NameFree (s.checkStore target indexed ty value pos) := by
  unfold checkStore
  simp only
  split
  · split
    · exact nameFree_refuse fun _ ↦ id
    · exact nameFree_located.2 id
  · exact nameFree_refuse fun _ ↦ id

theorem nameFree_checkTarget {indexed : Bool} :
    NameFree (s.checkTarget target indexed value pos) ↔ s.binding target.name ≠ .undeclared := by
  unfold checkTarget
  cases s.binding target.name with
  | param | «local» | field => simp [nameFree_checkStore]
  | cls | inherited => simp
  | undeclared => simp [Fault.IsName]

theorem nameFree_checkReturn (hm : s.method = some m) {value : Option Expr} :
    NameFree (s.checkReturn value pos) ↔ ∀ e ∈ value, e.Everywhere s.Declared := by
  cases value with
  | none =>
    refine iff_of_true ?_ nofun
    simp only [checkReturn, hm]
    exact nameFree_ite nameFree_nil (nameFree_located.2 id)
  | some e =>
    have hrest : NameFree (if m.ret = .void then [.located (.returnInVoid m.name) pos]
        else s.refuse (s.assignable m.ret) (.returnType m.name m.ret.text) e pos) :=
      nameFree_ite (nameFree_located.2 id) (nameFree_refuse fun _ ↦ id)
    simp [checkReturn, hm, hrest, nameFree_check_iff]

theorem checkStmts_eq_flatMap (stmts : List Stmt) :
    s.checkStmts stmts = stmts.flatMap s.checkStmt := by
  induction stmts with
  | nil => rfl
  | cons stmt rest ih => rw [checkStmts, ih, List.flatMap_cons]

theorem nameFree_checkStmt_iff_inner (hm : s.method = some m) (stmt : Stmt) :
    NameFree (s.checkStmt stmt) ↔
      s.NamesStmt (· ≠ .undeclared) stmt ∧ ∀ x ∈ stmt.inner, NameFree (s.checkStmt x) := by
  rw [namesStmt_iff]
  cases stmt with
  | var decl => simp [checkStmt, Stmt.inner]
  | block body pos => simp [checkStmt, checkStmts_eq_flatMap, Stmt.inner]
  | ifThen cond body pos | «while» cond body pos =>
    simp [checkStmt, nameFree_checkCondition, Stmt.inner]
  | ifElse cond body other pos =>
    simp [checkStmt, nameFree_checkCondition, Stmt.inner]
  | expr e pos => simp [checkStmt, nameFree_check_iff, Stmt.inner]
  | assign target index value pos =>
    cases index with
    | none =>
      simp [checkStmt, nameFree_check_iff, nameFree_checkTarget, Stmt.inner, and_comm]
    | some i =>
      simp [checkStmt, nameFree_check_iff, nameFree_checkTarget, Stmt.inner]
      tauto
  | «return» value pos =>
    simp [checkStmt, nameFree_checkReturn hm, Stmt.inner]

/-- The checker reports no name in a body just if all names in its statements are declared. -/
theorem nameFree_checkStmts_iff (hm : s.method = some m) {body : List Stmt} :
    NameFree (s.checkStmts body) ↔
      ∀ stmt ∈ body, ∀ x, Stmt.Within x stmt → s.NamesStmt (· ≠ .undeclared) x := by
  rw [checkStmts_eq_flatMap, nameFree_flatMap]
  exact forall₂_congr fun stmt _ ↦
    Stmt.forall_within_of_step (nameFree_checkStmt_iff_inner hm) stmt

end

end Scope

theorem MethodDecl.nameFree_checkMain (m : MethodDecl) (ret : Ty) : NameFree (m.checkMain ret) := by
  have hmodifiers : NameFree (if m.isPublic && m.isStatic then []
      else [.located .mainNotPublicStatic m.name.pos]) :=
    nameFree_ite nameFree_nil (nameFree_located.2 id)
  have hret : NameFree (if ret = .void then [] else [.located .mainNotVoid m.name.pos]) :=
    nameFree_ite nameFree_nil (nameFree_located.2 id)
  refine nameFree_append.2 ⟨nameFree_append.2 ⟨hmodifiers, hret⟩, ?_⟩
  split
  · exact nameFree_ite nameFree_nil (nameFree_located.2 id)
  · exact nameFree_located.2 id

theorem MethodDecl.nameFree_checkShape (m : MethodDecl) (ret : Ty) :
    NameFree (m.checkShape ret) :=
  nameFree_append.2 ⟨nameFree_ite (m.nameFree_checkMain ret) nameFree_nil,
    nameFree_ite nameFree_nil (nameFree_located.2 id)⟩

/-- The checker reports no name in a program just if all names in its methods are declared. -/
theorem Program.nameFree_check_iff {p : Program} : NameFree p.check ↔
    ∀ m ∈ p.cls.methods, ∀ stmt ∈ m.body, ∀ x, Stmt.Within x stmt →
      (p.bodyScope m).NamesStmt (· ≠ .undeclared) x := by
  rw [check, nameFree_flatMap]
  refine forall₂_congr fun m hm ↦ ?_
  obtain ⟨sig, hsig⟩ := method_bodyScope hm
  have hdecl : p.symbols.method? m.name.name = some sig := hsig
  rw [← Scope.nameFree_checkStmts_iff hsig, bodyScope, MethodDecl.check, hdecl, nameFree_append]
  exact and_iff_right (m.nameFree_checkShape sig.ret)

end MiniJava

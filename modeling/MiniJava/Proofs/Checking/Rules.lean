import Mathlib.Tactic.ByContra
import Mathlib.Data.List.Forall2
import MiniJava.Proofs.Checking.Stores

namespace MiniJava

inductive Stmt.Within : Stmt → Stmt → Prop
  | here (stmt : Stmt) : Within stmt stmt
  | inside {x y stmt : Stmt} : y ∈ stmt.inner → Within x y → Within x stmt

namespace Scope

section

variable (s : Scope)

inductive Storable (target value : Ty) : Prop
  | same : target = value → Storable target value
  | upcast : target.isObject → value.isObject → value.name = s.symbols.className →
      s.symbols.superName = some target.name → Storable target value
  | imported : target.isObject → value.isObject → s.symbols.isImported target.name →
      s.symbols.isImported value.name → Storable target value

def Meets (P : Ty → Prop) (e : Expr) : Prop := ∀ ty, s.typing e = .known ty → P ty

def FillsTail (ty : Ty) (tail : List Expr) : Prop :=
  (∃ e, tail = [e] ∧ s.typing e = .known ty) ∨
    ∀ element, ty.element? = some element → ∀ e ∈ tail, s.Meets (s.Storable element) e

def Matches (m : Signature) (args : List Expr) : Prop :=
  let fits := List.Forall₂ fun p e ↦ s.Meets (s.Storable p.symbol.ty) e
  match m.varargs? with
  | none => fits m.params args
  | some p => ∃ fixed tail, args = fixed ++ tail ∧ fits m.params.dropLast fixed ∧
      s.FillsTail p.symbol.ty tail

/-- A call on a class or on a value of known type names a method there may be, and its arguments
match the method's parameters where those are declared here. -/
structure ProperCall (recv : Expr) (method : String) (args : List Expr) : Prop where
  resolved : s.callTyping recv method = .unknown →
    s.className? recv = none ∧ ∀ ty, s.typing recv ≠ .known ty
  arguments : ∀ m, s.target? recv method = some m → s.Matches m args

/-- What is demanded of an expression itself, whatever stands inside it. -/
def Proper : Expr → Prop
  | .int .. | .bool .. | .this _ | .paren .. => True
  | .ident id => s.binding id.name ≠ .undeclared
  | .binary (.arith _) left right _ | .binary .less left right _ =>
    s.Meets (· = .int) left ∧ s.Meets (· = .int) right
  | .binary .and left right _ => s.Meets (· = .boolean) left ∧ s.Meets (· = .boolean) right
  | .not e _ => s.Meets (· = .boolean) e
  | .index base idx _ => s.Meets (·.isArray) base ∧ s.Meets (· = .int) idx
  | .length base _ => s.Meets (·.isArray) base
  | .call recv method args _ => s.ProperCall recv method.name args
  | .newObject cls _ => cls.name = s.symbols.className ∨ s.symbols.superName = some cls.name ∨
      s.symbols.isImported cls.name
  | .newArray size _ => s.Meets (· = .int) size
  | .array elems _ => ∀ a ∈ elems, ∀ b ∈ elems, ∀ t, s.typing a = .known t → s.Meets (· = t) b

/-- The expressions directly inside an expression, but for the class that a call is made on. -/
def operands : Expr → List Expr
  | .call recv _ args _ => if (s.className? recv).isSome then args else recv :: args
  | e => e.children

inductive Occurs : Expr → Expr → Prop
  | here (e : Expr) : Occurs e e
  | inside {x y e : Expr} : y ∈ s.operands e → Occurs x y → Occurs x e

structure ProperStore (name : String) (indexed : Bool) (value : Expr) : Prop where
  declared : s.binding name ≠ .undeclared
  whole : indexed = false → ∀ t, s.declaredTy? name = some t → s.Meets (s.Storable t) value
  element : indexed = true → ∀ t, s.declaredTy? name = some t →
    ∃ u, t.element? = some u ∧ s.Meets (s.Storable u) value

def ProperStmt : Stmt → Prop
  | .var _ | .block .. | .expr .. => True
  | .ifThen cond _ _ | .ifElse cond _ _ _ | .while cond _ _ => s.Meets (· = .boolean) cond
  | .assign target index value _ => (∀ i ∈ index, s.Meets (· = .int) i) ∧
      s.ProperStore target.name index.isSome value
  | .return none _ => ∀ m, s.method = some m → m.ret = .void
  | .return (some e) _ => ∀ m, s.method = some m → m.ret ≠ .void ∧ s.Meets (s.Storable m.ret) e

end

variable {s : Scope} {e : Expr} {m : Signature} {args : List Expr} {pos : Position}

theorem storable_iff {target value : Ty} :
    s.assignable target value = true ↔ s.Storable target value := by
  simp only [assignable, Bool.or_eq_true, beq_iff_eq, Bool.and_eq_true, Symbols.isSuper]
  constructor
  · rintro (rfl | ⟨⟨ht, hv⟩, ⟨hname, hsuper⟩ | ⟨htarget, hvalue⟩⟩)
    · exact .same rfl
    · exact .upcast ht hv hname hsuper
    · exact .imported ht hv htarget hvalue
  · rintro (rfl | ⟨ht, hv, hname, hsuper⟩ | ⟨ht, hv, htarget, hvalue⟩)
    · exact .inl rfl
    · exact .inr ⟨⟨ht, hv⟩, .inl ⟨hname, hsuper⟩⟩
    · exact .inr ⟨⟨ht, hv⟩, .inr ⟨htarget, hvalue⟩⟩

theorem refuse_eq_nil_iff {accepts : Ty → Bool} {fault : String → Fault} :
    s.refuse accepts fault e pos = [] ↔ s.Meets (accepts · = true) e := by
  refine ⟨fun h ty hty ↦ accepts_of_refuse h hty, fun h ↦ ?_⟩
  unfold refuse
  cases ht : s.typing e with
  | known ty => simp [Typing.violation, h ty ht]
  | unknown | foreign => rfl

theorem refuse_beq_eq_nil_iff {t : Ty} {fault : String → Fault} :
    s.refuse (· == t) fault e pos = [] ↔ s.Meets (· = t) e := by
  simp only [refuse_eq_nil_iff, beq_iff_eq]

theorem refuse_assignable_eq_nil_iff {t : Ty} {fault : String → Fault} :
    s.refuse (s.assignable t) fault e pos = [] ↔ s.Meets (s.Storable t) e := by
  simp only [refuse_eq_nil_iff, Meets, storable_iff]

theorem checkBase_eq_nil_iff : s.checkBase e = [] ↔ s.Meets (·.isArray) e := refuse_eq_nil_iff

theorem checkIndex_eq_nil_iff : s.checkIndex e = [] ↔ s.Meets (· = .int) e := refuse_beq_eq_nil_iff

section Arguments

theorem checkFixed_eq_nil_iff {ps : List Parameter} {i : Nat} (h : ps.length ≤ args.length) :
    ((ps.zip args).zipIdx i).flatMap
        (fun ((p, arg), j) ↦ s.checkArgument m j p.symbol.ty arg) = [] ↔
      List.Forall₂ (fun p e ↦ s.Meets (s.Storable p.symbol.ty) e) ps (args.take ps.length) := by
  induction ps generalizing args i with
  | nil => simp
  | cons p ps ih =>
    cases args with
    | nil => simp at h
    | cons e args =>
      have hlen : ps.length ≤ args.length := by simpa using h
      have hrest := @ih args (i + 1) hlen
      simp only [List.zip_cons_cons, List.zipIdx_cons, List.flatMap_cons, List.append_eq_nil_iff,
        List.length_cons, List.take_succ_cons, List.forall₂_cons, hrest]
      exact and_congr_left' refuse_assignable_eq_nil_iff

theorem checkTail_eq_nil_iff {p : Parameter} {tail : List Expr} :
    s.checkTail m p tail = [] ↔ s.FillsTail p.symbol.ty tail := by
  have hwhole : tail.map (s.typing ·) = [.known p.symbol.ty] ↔
      ∃ e, tail = [e] ∧ s.typing e = .known p.symbol.ty := List.map_eq_singleton_iff
  unfold checkTail FillsTail
  split
  · next h => exact iff_of_true rfl (.inl (hwhole.1 h))
  · next h =>
    rw [or_iff_right (mt hwhole.2 h)]
    cases p.symbol.ty.element? with
    | none => exact iff_of_true rfl nofun
    | some element =>
      simp only [List.flatMap_eq_nil_iff, Option.some.injEq, forall_eq']
      constructor
      · intro hall e he
        obtain ⟨i, hi⟩ := List.getElem?_of_mem he
        have hmem : (e, m.fixedCount + i) ∈ tail.zipIdx m.fixedCount :=
          List.mk_add_mem_zipIdx_iff_getElem?.2 hi
        exact refuse_assignable_eq_nil_iff.1 (hall _ hmem)
      · rintro hall ⟨e, i⟩ hmem
        exact refuse_assignable_eq_nil_iff.2 (hall e (List.fst_mem_of_mem_zipIdx hmem))

theorem checkArguments_of_plain (hv : m.varargs? = none) :
    s.checkArguments m args pos = [] ↔
      List.Forall₂ (fun p e ↦ s.Meets (s.Storable p.symbol.ty) e) m.params args := by
  have hno : m.hasVarargs = false := by simp [Signature.hasVarargs, hv]
  have hcount : m.fixedCount = m.params.length := by simp [Signature.fixedCount, hno]
  unfold checkArguments
  by_cases hlen : args.length = m.params.length
  · have hfixed := checkFixed_eq_nil_iff (s := s) (m := m) (i := 0) (Nat.le_of_eq hlen.symm)
    rw [← hlen, List.take_length] at hfixed
    simpa [hno, hcount, hv, hlen] using hfixed
  · refine iff_of_false (fun h ↦ ?_) fun h ↦ hlen h.length_eq.symm
    have hwrong : args.length < m.params.length ∨ m.params.length < args.length :=
      Nat.lt_or_gt_of_ne hlen
    simp [hno, hcount, hwrong] at h

theorem checkArguments_of_varargs {p : Parameter} (hv : m.varargs? = some p) :
    s.checkArguments m args pos = [] ↔ ∃ fixed tail, args = fixed ++ tail ∧
      List.Forall₂ (fun p e ↦ s.Meets (s.Storable p.symbol.ty) e) m.params.dropLast fixed ∧
      s.FillsTail p.symbol.ty tail := by
  have hsome : m.hasVarargs = true := by simp [Signature.hasVarargs, hv]
  obtain ⟨hparams, -⟩ := Signature.mem_of_varargs hv
  have hdrop : m.params.dropLast = m.params.take m.fixedCount := by
    conv_lhs => rw [hparams, List.dropLast_concat]
  have hcount : (m.params.take m.fixedCount).length = m.fixedCount := by
    simp [Signature.fixedCount, hsome]
  unfold checkArguments
  rw [hdrop]
  by_cases hlen : m.fixedCount ≤ args.length
  · have hfixed := checkFixed_eq_nil_iff (s := s) (m := m) (i := 0) (hcount.symm ▸ hlen)
    rw [hcount] at hfixed
    simp only [hsome, Bool.not_true, Bool.false_and, Bool.or_false, decide_eq_true_eq,
      Nat.not_lt.2 hlen, if_false, List.append_eq_nil_iff, hv, hfixed, checkTail_eq_nil_iff]
    constructor
    · rintro ⟨hf, ht⟩
      exact ⟨_, _, (List.take_append_drop _ _).symm, hf, ht⟩
    · rintro ⟨fixed, tail, rfl, hf, ht⟩
      have hfl := hf.length_eq.symm.trans hcount
      rw [← hfl, List.take_left, List.drop_left]
      exact ⟨hfl ▸ hf, ht⟩
  · refine iff_of_false (fun h ↦ ?_) ?_
    · simp [hsome, Nat.not_le.1 hlen] at h
    · rintro ⟨fixed, tail, rfl, hf, -⟩
      refine hlen ?_
      rw [← hcount, hf.length_eq, List.length_append]
      exact Nat.le_add_right _ _

/-- Arguments are accepted just if they match the parameters. -/
theorem checkArguments_eq_nil_iff : s.checkArguments m args pos = [] ↔ s.Matches m args := by
  unfold Matches
  cases hv : m.varargs? with
  | none => exact checkArguments_of_plain hv
  | some p => exact checkArguments_of_varargs hv

end Arguments

theorem callTyping_of_target {recv : Expr} {method : String} (h : s.target? recv method = some m) :
    s.callTyping recv method = .known m.ret := by
  unfold target? at h
  unfold callTyping
  split at h
  · next cls hcls =>
    split at h
    · next hown => simp [methodTyping, hown, Symbols.returnTy?, h]
    · cases h
  · cases h

theorem receiverText?_eq_none_iff {recv : Expr} :
    s.receiverText? recv = none ↔ s.className? recv = none ∧ ∀ ty, s.typing recv ≠ .known ty := by
  unfold receiverText?
  cases s.className? recv with
  | some cls => simp
  | none => cases s.typing recv <;> simp [Typing.known?]

theorem checkCall_eq_nil_iff {recv : Expr} {method : Ident} :
    s.checkCall recv method args pos = [] ↔ s.ProperCall recv method.name args := by
  unfold checkCall
  split
  · next hunknown =>
    have hcall : s.ProperCall recv method.name args ↔ s.receiverText? recv = none := by
      rw [receiverText?_eq_none_iff]
      refine ⟨fun h ↦ h.resolved hunknown, fun h ↦ ⟨fun _ ↦ h, fun m hm ↦ ?_⟩⟩
      -- A call that is bound to a declared method has that method's type.
      exact absurd (hunknown.symm.trans (callTyping_of_target hm)) nofun
    rw [hcall]
    cases s.receiverText? recv <;> simp
  · next hknown =>
    have hcall : s.ProperCall recv method.name args ↔
        ∀ m, s.target? recv method.name = some m → s.Matches m args :=
      ⟨fun h ↦ h.arguments, fun h ↦ ⟨fun hunknown ↦ absurd hunknown hknown, h⟩⟩
    rw [hcall]
    cases s.target? recv method.name with
    | none => simp
    | some m => simp [checkArguments_eq_nil_iff]

theorem checkAll_eq_nil_iff {es : List Expr} : s.checkAll es = [] ↔ ∀ e ∈ es, s.check e = [] := by
  rw [checkAll_eq_flatMap, List.flatMap_eq_nil_iff]

section Elements

variable {es : List Expr} {t : Ty}

theorem checkElements_known_iff : s.checkElements (some t) es = [] ↔
    (∀ e ∈ es, s.check e = []) ∧ ∀ e ∈ es, s.Meets (· = t) e := by
  induction es with
  | nil => simp [checkElements]
  | cons e es ih =>
    have hrest : ((some t : Option Ty) <|> (s.typing e).known?) = some t := rfl
    rw [checkElements, hrest, List.append_eq_nil_iff, List.append_eq_nil_iff, ih, checkElement,
      refuse_beq_eq_nil_iff, List.forall_mem_cons, List.forall_mem_cons, and_and_and_comm]

def Uniform (s : Scope) (es : List Expr) : Prop :=
  ∀ a ∈ es, ∀ b ∈ es, ∀ t, s.typing a = .known t → s.Meets (· = t) b

theorem uniform_cons_known (h : s.typing e = .known t) :
    s.Uniform (e :: es) ↔ ∀ b ∈ es, s.Meets (· = t) b := by
  constructor
  · exact fun hall b hb ↦ hall e List.mem_cons_self b (List.mem_cons_of_mem e hb) t h
  · intro hall a ha b hb u hu v hv
    have hself (x : Expr) (hx : x ∈ e :: es) : s.Meets (· = t) x := by
      rcases List.mem_cons.1 hx with rfl | hx
      · exact fun w hw ↦ Typing.known.inj (hw.symm.trans h)
      · exact hall x hx
    exact (hself b hb v hv).trans (hself a ha u hu).symm

theorem uniform_cons_other (h : ∀ t, s.typing e ≠ .known t) :
    s.Uniform (e :: es) ↔ s.Uniform es := by
  constructor
  · exact fun hall a ha b hb ↦ hall a (List.mem_cons_of_mem e ha) b (List.mem_cons_of_mem e hb)
  · intro hall a ha b hb u hu v hv
    rcases List.mem_cons.1 ha with rfl | ha
    · exact absurd hu (h u)
    · rcases List.mem_cons.1 hb with rfl | hb
      · exact absurd hv (h v)
      · exact hall a ha b hb u hu v hv

theorem checkElements_none_iff : s.checkElements none es = [] ↔
    (∀ e ∈ es, s.check e = []) ∧ s.Uniform es := by
  induction es with
  | nil => exact iff_of_true rfl ⟨nofun, nofun⟩
  | cons e es ih =>
    have hrest : ((none : Option Ty) <|> (s.typing e).known?) = (s.typing e).known? := rfl
    rw [checkElements, hrest, checkElement, List.append_nil, List.append_eq_nil_iff,
      List.forall_mem_cons, and_assoc]
    refine and_congr_right' ?_
    cases ht : s.typing e with
    | known t => rw [Typing.known?, checkElements_known_iff, uniform_cons_known ht]
    | unknown | foreign =>
      rw [Typing.known?, ih, uniform_cons_other fun t hu ↦ Typing.noConfusion (ht.symm.trans hu)]

end Elements

theorem isClassName_iff {name : String} : s.symbols.isClassName name = true ↔
    name = s.symbols.className ∨ s.symbols.superName = some name ∨ s.symbols.isImported name := by
  simp [Symbols.isClassName, Symbols.isSuper, or_assoc]

/-- The findings of an expression are its own and those of its operands. -/
theorem check_eq_nil_iff :
    s.check e = [] ↔ s.Proper e ∧ ∀ x ∈ s.operands e, s.check x = [] := by
  cases e with
  | int | bool | this => exact iff_of_true rfl ⟨trivial, nofun⟩
  | ident id => simp [check, checkIdent, Proper, operands, Expr.children]
  | paren e pos => simp [check, Proper, operands, Expr.children]
  | binary op left right pos =>
    have hop : s.Proper (.binary op left right pos) ↔
        s.Meets (· = op.operandTy) left ∧ s.Meets (· = op.operandTy) right := by cases op <;> rfl
    simp only [check, checkOperand, List.append_eq_nil_iff, refuse_beq_eq_nil_iff, hop, operands,
      Expr.children, forall_mem_two]
    tauto
  | not e pos =>
    simp only [check, List.append_eq_nil_iff, refuse_beq_eq_nil_iff, Proper, operands,
      Expr.children, List.forall_mem_singleton, and_comm]
  | index base idx pos =>
    simp only [check, List.append_eq_nil_iff, checkBase_eq_nil_iff, checkIndex_eq_nil_iff, Proper,
      operands, Expr.children, forall_mem_two]
    tauto
  | length base pos =>
    simp only [check, List.append_eq_nil_iff, checkBase_eq_nil_iff, Proper, operands,
      Expr.children, List.forall_mem_singleton, and_comm]
  | call recv method args pos =>
    simp only [check, List.append_eq_nil_iff, checkAll_eq_nil_iff, checkCall_eq_nil_iff, Proper,
      operands]
    cases (s.className? recv).isSome with
    | true => simp [and_comm]
    | false => simp [and_comm]
  | newObject cls pos =>
    simp only [check, Proper, operands, Expr.children, ← isClassName_iff]
    cases s.symbols.isClassName cls.name <;> simp
  | newArray size pos =>
    simp only [check, List.append_eq_nil_iff, checkIndex_eq_nil_iff, Proper, operands,
      Expr.children, List.forall_mem_singleton, and_comm]
  | array elems pos =>
    rw [check, checkElements_none_iff, and_comm]
    rfl

theorem forall_occurs_iff {P : Expr → Prop} :
    (∀ x, s.Occurs x e → P x) ↔ P e ∧ ∀ y ∈ s.operands e, ∀ x, s.Occurs x y → P x := by
  constructor
  · exact fun h ↦ ⟨h e (.here e), fun y hy x hx ↦ h x (.inside hy hx)⟩
  · rintro ⟨he, hin⟩ x hx
    cases hx with
    | here => exact he
    | inside hy hx => exact hin _ hy x hx

theorem mem_children_of_operands {x : Expr} (h : x ∈ s.operands e) : x ∈ e.children := by
  cases e with
  | call recv method args pos =>
    simp only [operands] at h
    split at h
    · exact List.mem_cons_of_mem recv h
    · exact h
  | int | bool | ident | this | binary | not | paren | index | length | newObject | newArray
  | array => exact h

/-- An expression is accepted just if all that occurs in it is as it should be. -/
theorem check_eq_nil_iff_occurs : s.check e = [] ↔ ∀ x, s.Occurs x e → s.Proper x := by
  induction e using Expr.children_induction with
  | step e ih =>
    rw [check_eq_nil_iff, forall_occurs_iff]
    exact and_congr_right' (forall₂_congr fun y hy ↦ ih y (mem_children_of_operands hy))

section Statements

variable {target : Ident} {index : Option Expr} {value : Expr} {stmt : Stmt}

theorem checkCondition_eq_nil_iff :
    s.checkCondition e = [] ↔ s.check e = [] ∧ s.Meets (· = .boolean) e := by
  rw [checkCondition, List.append_eq_nil_iff, refuse_beq_eq_nil_iff]

theorem checkTarget_of_undeclared {indexed : Bool} (hd : s.declaredTy? target.name = none) :
    s.checkTarget target indexed value pos = [] ↔ s.binding target.name ≠ .undeclared := by
  unfold declaredTy? at hd
  unfold checkTarget
  cases hb : s.binding target.name with
  | param | «local» | field => simp [hb] at hd
  | undeclared => simp
  | cls | inherited => simp

theorem checkTarget_eq_nil_iff {indexed : Bool} :
    s.checkTarget target indexed value pos = [] ↔ s.ProperStore target.name indexed value := by
  cases hd : s.declaredTy? target.name with
  | none =>
    rw [checkTarget_of_undeclared hd]
    exact ⟨fun h ↦ ⟨h, fun _ t ht ↦ absurd (hd.symm.trans ht) nofun,
      fun _ t ht ↦ absurd (hd.symm.trans ht) nofun⟩, fun h ↦ h.declared⟩
  | some t =>
    have hdeclared : s.binding target.name ≠ .undeclared := by
      intro hb
      simp [declaredTy?, hb] at hd
    rw [checkTarget_of_declared hd, checkStore]
    cases indexed with
    | false =>
      simp only [Bool.false_eq_true, if_false, refuse_assignable_eq_nil_iff]
      refine ⟨fun h ↦ ⟨hdeclared, fun _ u hu ↦ ?_, Bool.noConfusion⟩, fun h ↦ h.whole rfl t hd⟩
      exact Option.some.inj (hd.symm.trans hu) ▸ h
    | true =>
      have hstore : s.ProperStore target.name true value ↔
          ∃ u, t.element? = some u ∧ s.Meets (s.Storable u) value := by
        refine ⟨fun h ↦ h.element rfl t hd,
          fun h ↦ ⟨hdeclared, Bool.noConfusion, fun _ u hu ↦ ?_⟩⟩
        exact Option.some.inj (hd.symm.trans hu) ▸ h
      rw [hstore]
      cases t.element? with
      | none => simp
      | some u => simp [refuse_assignable_eq_nil_iff]

theorem checkReturn_eq_nil_iff (hm : s.method = some m) {value : Option Expr} :
    s.checkReturn value pos = [] ↔
      s.ProperStmt (.return value pos) ∧ ∀ e ∈ value, s.check e = [] := by
  cases value with
  | none => simp [checkReturn, hm, ProperStmt]
  | some e =>
    by_cases hvoid : m.ret = .void
    · simp [checkReturn, hm, ProperStmt, hvoid]
    · simp [checkReturn, hm, ProperStmt, hvoid, refuse_assignable_eq_nil_iff, and_comm]

theorem forall_within_iff {P : Stmt → Prop} :
    (∀ x, Stmt.Within x stmt → P x) ↔ P stmt ∧ ∀ y ∈ stmt.inner, ∀ x, Stmt.Within x y → P x := by
  constructor
  · exact fun h ↦ ⟨h stmt (.here stmt), fun y hy x hx ↦ h x (.inside hy hx)⟩
  · rintro ⟨hs, hin⟩ x hx
    cases hx with
    | here => exact hs
    | inside hy hx => exact hin _ hy x hx

mutual

/-- A statement is accepted just if all statements in it are as they should be, and all its
expressions are accepted. -/
theorem checkStmt_eq_nil_iff (hm : s.method = some m) : ∀ stmt : Stmt, s.checkStmt stmt = [] ↔
    (∀ x, Stmt.Within x stmt → s.ProperStmt x) ∧ ∀ e ∈ stmt.exprs, s.check e = []
  | .var decl => by
    rw [forall_within_iff]
    exact iff_of_true rfl ⟨⟨trivial, nofun⟩, nofun⟩
  | .block body pos => by
    rw [forall_within_iff, checkStmt, checkStmts_eq_nil_iff hm body]
    simp only [ProperStmt, Stmt.inner, Stmt.exprs, true_and]
  | .ifThen cond body pos | .while cond body pos => by
    rw [forall_within_iff, checkStmt, List.append_eq_nil_iff, checkCondition_eq_nil_iff,
      checkStmt_eq_nil_iff hm body]
    simp only [ProperStmt, Stmt.inner, Stmt.exprs, List.forall_mem_singleton, List.forall_mem_cons]
    tauto
  | .ifElse cond body other pos => by
    rw [forall_within_iff, checkStmt, List.append_eq_nil_iff, List.append_eq_nil_iff,
      checkCondition_eq_nil_iff, checkStmt_eq_nil_iff hm body, checkStmt_eq_nil_iff hm other]
    simp only [ProperStmt, Stmt.inner, Stmt.exprs, forall_mem_two, List.forall_mem_cons,
      List.forall_mem_append]
    tauto
  | .expr e pos => by
    rw [forall_within_iff, checkStmt]
    simp only [ProperStmt, Stmt.inner, Stmt.exprs, List.forall_mem_singleton]
    tauto
  | .assign target index value pos => by
    rw [forall_within_iff, checkStmt, List.append_eq_nil_iff, List.append_eq_nil_iff,
      checkTarget_eq_nil_iff]
    cases index with
    | none => simp [ProperStmt, Stmt.inner, Stmt.exprs, and_comm]
    | some i =>
      simp [ProperStmt, Stmt.inner, Stmt.exprs, checkIndex_eq_nil_iff]
      tauto
  | .return value pos => by
    rw [forall_within_iff, checkStmt, checkReturn_eq_nil_iff hm]
    simp [Stmt.inner, Stmt.exprs]

theorem checkStmts_eq_nil_iff (hm : s.method = some m) : ∀ body : List Stmt,
    s.checkStmts body = [] ↔ (∀ stmt ∈ body, ∀ x, Stmt.Within x stmt → s.ProperStmt x) ∧
      ∀ e ∈ Stmt.exprsAll body, s.check e = []
  | [] => iff_of_true rfl ⟨nofun, nofun⟩
  | stmt :: rest => by
    rw [checkStmts, List.append_eq_nil_iff, checkStmt_eq_nil_iff hm stmt,
      checkStmts_eq_nil_iff hm rest, Stmt.exprsAll, List.forall_mem_cons, List.forall_mem_append,
      and_and_and_comm]

end

end Statements

end Scope

end MiniJava

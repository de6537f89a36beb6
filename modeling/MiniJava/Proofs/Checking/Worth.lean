import MiniJava.Proofs.Checking.Rules
import MiniJava.Proofs.Lowering.MethodMeaning

namespace MiniJava

open Tac Lower

def Ty.Valued (t : Ty) : Prop := t.name ≠ Ty.void.name

instance : DecidablePred Ty.Valued := fun t ↦ inferInstanceAs (Decidable (t.name ≠ Ty.void.name))

theorem Ty.Valued.ne_void {t : Ty} (h : t.Valued) : t ≠ .void := by
  rintro rfl
  exact h rfl

theorem Ty.Valued.element {t u : Ty} (h : t.Valued) (hu : t.element? = some u) : u.Valued := by
  obtain ⟨-, hu⟩ := Option.ite_none_right_eq_some.1 hu
  obtain rfl := Option.some.inj hu
  exact h

theorem Ty.valued_or_of_ne_void {t : Ty} (h : t ≠ .void) : t.Valued ∨ t = Ty.void.arrayOf := by
  obtain ⟨name, isArray⟩ := t
  by_cases hname : name = Ty.void.name
  · subst hname
    cases isArray with
    | false => exact absurd rfl h
    | true => exact .inr rfl
  · exact .inl hname

namespace Tac.ValType

def Valued : ValType → Prop
  | .void => False
  | .array element => element.Valued
  | .int | .bool | .string | .cls _ => True

theorem Valued.ne_void {t : ValType} (h : t.Valued) : t ≠ .void := by
  rintro rfl
  exact h

theorem valued_ofTy {t : Ty} (h : t.Valued) : (ofTy t).Valued := by
  have hname : (ofName t.name).Valued := by
    have hvoid : t.name ≠ "void" := h
    unfold ofName
    simp only [hvoid, if_false]
    split_ifs <;> trivial
  unfold ofTy
  split
  · exact hname
  · exact hname

theorem Valued.element {t : ValType} (h : t.Valued) (d : ValType) :
    (t.element?.getD d).Valued ∨ t.element?.getD d = d := by
  cases t with
  | array element => exact .inl h
  | int | bool | void | string | cls => exact .inr rfl

theorem Valued.element_ne_void {t : ValType} (h : t.Valued) : t.element?.getD .int ≠ .void := by
  rcases h.element .int with hvalued | hint
  · exact hvalued.ne_void
  · rw [hint]
    exact nofun

theorem ofTy_ne_void {t : Ty} (h : t ≠ .void) : ofTy t ≠ .void := mt (ofTy_eq_void_iff t).1 h

end Tac.ValType

theorem Typing.valType_ne_void {t : Typing} {hint : Option ValType} (h : t ≠ .known .void)
    (hhint : hint.getD .int ≠ .void) : t.valType hint ≠ .void := by
  cases t with
  | known ty =>
    refine ValType.ofTy_ne_void ?_
    rintro rfl
    exact h rfl
  | unknown | foreign => exact hhint

/-- Nothing is declared to hold what methods without a result give. -/
structure Symbols.DeclaresValues (t : Symbols) : Prop where
  fields : ∀ f ∈ t.fields, f.ty ≠ .void
  params : ∀ m ∈ t.methods, ∀ p ∈ m.params, p.symbol.ty ≠ .void
  gathered : ∀ m ∈ t.methods, ∀ p ∈ m.params, p.isVarargs = true → p.symbol.ty.Valued
  locals : ∀ m ∈ t.methods, ∀ v ∈ m.locals, v.ty ≠ .void

namespace Scope

section

variable (s : Scope)

/-- Where the checker looks at no types, there are values: among the arguments of methods that are
not declared here and among the elements of arrays. What is indexed has elements with values. -/
def Filled : Expr → Prop
  | .call recv method args _ =>
    s.target? recv method.name = none → ∀ e ∈ args, s.typing e ≠ .known .void
  | .array elems _ => ∀ e ∈ elems, s.Meets Ty.Valued e
  | .index base _ _ => s.typing base ≠ .known Ty.void.arrayOf
  | .int .. | .bool .. | .ident _ | .this _ | .binary .. | .not .. | .paren .. | .length ..
  | .newObject .. | .newArray .. => True

def FilledStmt : Stmt → Prop
  | .assign target index value _ =>
    (s.binding target.name = .inherited → s.typing value ≠ .known .void) ∧
      (index.isSome = true → s.declaredTy? target.name ≠ some Ty.void.arrayOf)
  | .var _ | .block .. | .ifThen .. | .ifElse .. | .while .. | .expr .. | .return .. => True

def Yields (e : Expr) : Prop :=
  ∀ recv method args pos, e.unparen = .call recv method args pos →
    s.callTyping recv method.name ≠ .known .void

structure Worth (e : Expr) (hint : Option ValType) : Prop where
  checked : s.Checked s.Filled e
  yields : s.Yields e
  hint : hint.getD .int ≠ .void

inductive ValueTy (e : Expr) (hint : Option ValType) : ValType → Prop
  | valued {ty : ValType} : ty.Valued → ValueTy e hint ty
  | wanted : ValueTy e hint (hint.getD .int)
  | hollow : s.typing e = .known Ty.void.arrayOf → ValueTy e hint (.ofTy Ty.void.arrayOf)

end

variable {s : Scope} {e : Expr} {hint : Option ValType} {m : Signature} {pos : Position}

theorem typing_unparen (e : Expr) : s.typing e.unparen = s.typing e := by
  induction e using Expr.children_induction with
  | step e ih =>
    cases e with
    | paren e pos => exact ih e (List.mem_singleton_self e)
    | int | bool | ident | this | binary | not | index | length | call | newObject | newArray
    | array => rfl

theorem yields_of_typing (h : s.typing e ≠ .known .void) : s.Yields e := by
  intro recv method args pos hcall hvoid
  rw [← typing_unparen, hcall] at h
  exact h hvoid

theorem not_void_of_refuse {accepts : Ty → Bool} {fault : String → Fault}
    (h : s.refuse accepts fault e pos = []) (hvoid : accepts .void = false) :
    s.typing e ≠ .known .void := by
  intro ht
  rw [accepts_of_refuse h ht] at hvoid
  exact Bool.noConfusion hvoid

theorem not_void_of_storable {t : Ty} (ht : t ≠ .void) (h : s.Meets (s.Storable t) e) :
    s.typing e ≠ .known .void := by
  intro hvoid
  cases h _ hvoid with
  | same heq => exact ht heq
  | upcast _ hobject _ _ => exact absurd hobject (by decide)
  | imported _ hobject _ _ => exact absurd hobject (by decide)

theorem ne_void_of_declaredTy (hd : s.symbols.DeclaresValues) (hs : s.Own) {name : String} {t : Ty}
    (h : s.declaredTy? name = some t) : t ≠ .void := by
  unfold declaredTy? at h
  cases hb : s.binding name with
  | param i p =>
    obtain rfl := Option.some.inj (hb ▸ h)
    obtain ⟨m, hm, -⟩ := Option.bind_eq_some_iff.1
      (methodBinding?_of_binding hb (.inl ⟨i, p, rfl⟩))
    have hp := (Signature.mem_of_param? (param?_of_binding hm hb)).1
    exact hd.params m (hs m hm) p hp
  | «local» v =>
    obtain rfl := Option.some.inj (hb ▸ h)
    obtain ⟨m, hm, hv⟩ := local?_of_binding hb
    exact hd.locals m (hs m hm) v (List.mem_of_find?_eq_some hv)
  | field f =>
    obtain rfl := Option.some.inj (hb ▸ h)
    exact hd.fields f (List.mem_of_find?_eq_some (field?_of_binding hb))
  | cls | inherited | undeclared => exact absurd (hb ▸ h) nofun

theorem valued_literalElement {elems : List Expr} {pos : Position}
    (hf : (Expr.array elems pos).Everywhere s.Filled) : (s.literalElement elems).Valued := by
  cases elems with
  | nil => trivial
  | cons e es =>
    have hvalued := hf.here e List.mem_cons_self
    have helement : s.literalElement (e :: es) = (s.typing e).valType none := rfl
    rw [helement]
    cases ht : s.typing e with
    | known t => exact ValType.valued_ofTy (hvalued t ht)
    | unknown | foreign => trivial

theorem ValueTy.of_known {t : Ty} (ht : t ≠ .void) (h : s.typing e = .known t) :
    s.ValueTy e hint (.ofTy t) := by
  rcases Ty.valued_or_of_ne_void ht with hvalued | rfl
  · exact .valued (ValType.valued_ofTy hvalued)
  · exact .hollow h

theorem ValueTy.of_typing (h : s.typing e ≠ .known .void) :
    s.ValueTy e hint ((s.typing e).valType hint) := by
  cases ht : s.typing e with
  | known t =>
    refine .of_known ?_ ht
    rintro rfl
    exact h ht
  | unknown | foreign => exact .wanted

theorem ValueTy.ne_void {ty : ValType} (h : s.ValueTy e hint ty) (hhint : hint.getD .int ≠ .void) :
    ty ≠ .void := by
  cases h with
  | valued h => exact h.ne_void
  | wanted => exact hhint
  | hollow _ => exact ValType.ofTy_ne_void nofun

theorem ValueTy.of_typing_eq {e' : Expr} {ty : ValType} (h : s.ValueTy e hint ty)
    (he : s.typing e' = s.typing e) : s.ValueTy e' hint ty := by
  cases h with
  | valued h => exact .valued h
  | wanted => exact .wanted
  | hollow h => exact .hollow (he.trans h)

theorem ValueTy.of_element {base idx : Expr} {ty : ValType} (h : s.ValueTy base none ty)
    (hne : s.typing base ≠ .known Ty.void.arrayOf) :
    s.ValueTy (.index base idx pos) hint (ty.element?.getD (hint.getD .int)) := by
  cases h with
  | valued h =>
    rcases h.element (hint.getD .int) with hvalued | hwanted
    · exact .valued hvalued
    · rw [hwanted]
      exact .wanted
  | wanted => exact .wanted
  | hollow h => exact absurd h hne

theorem valueTy_lowerIdent (hd : s.symbols.DeclaresValues) (hs : s.Own) (id : Ident)
    (hint : Option ValType) (n : Numbering) :
    s.ValueTy (.ident id) hint (s.lowerIdent id hint n).value.ty := by
  have hdeclared {t : Ty} (ht : s.declaredTy? id.name = some t)
      (hty : s.identTyping id.name = .known t) : s.ValueTy (.ident id) hint (.ofTy t) :=
    .of_known (ne_void_of_declaredTy hd hs ht) hty
  unfold lowerIdent
  cases hb : s.binding id.name with
  | param | «local» | field =>
    exact hdeclared (by rw [declaredTy?, hb]) (by rw [identTyping, hb])
  | inherited | undeclared => exact .wanted
  | cls => exact .valued trivial

section Arguments

variable {args : List Expr} (hp : ∀ p ∈ m.params, p.symbol.ty ≠ .void)

include hp

theorem not_void_of_forall₂ {ps : List Parameter} (hps : ps ⊆ m.params)
    (h : List.Forall₂ (fun p e ↦ s.Meets (s.Storable p.symbol.ty) e) ps args) :
    ∀ e ∈ args, s.typing e ≠ .known .void := by
  induction h with
  | nil => nofun
  | cons he _ ih =>
    obtain ⟨hmem, hps⟩ := List.cons_subset.1 hps
    exact List.forall_mem_cons.2 ⟨not_void_of_storable (hp _ hmem) he, ih hps⟩

/-- Declared parameters take values. -/
theorem not_void_of_matches (hv : ∀ p ∈ m.params, p.isVarargs = true → p.symbol.ty.Valued)
    (hw : m.WellFormed) (h : s.Matches m args) :
    ∀ e ∈ args, s.typing e ≠ .known .void := by
  unfold Matches at h
  cases hlast : m.varargs? with
  | none =>
    rw [hlast] at h
    exact not_void_of_forall₂ hp (List.Subset.refl _) h
  | some p =>
    rw [hlast] at h
    obtain ⟨fixed, tail, rfl, hfixed, htail⟩ := h
    obtain ⟨hparams, hmany⟩ := Signature.mem_of_varargs hlast
    have hmem : p ∈ m.params := hparams ▸ List.mem_append_right _ (List.mem_singleton_self p)
    refine List.forall_mem_append.2 ⟨not_void_of_forall₂ hp (List.dropLast_subset _) hfixed, ?_⟩
    rcases htail with ⟨e, rfl, hwhole⟩ | helements
    · refine List.forall_mem_singleton.2 fun hvoid ↦ hp p hmem ?_
      exact Typing.known.inj (hwhole.symm.trans hvoid)
    · have helement : p.symbol.ty.element? = some ⟨p.symbol.ty.name, false⟩ :=
        if_pos (hw.array_of_varargs hlast)
      have hvalued : Ty.Valued ⟨p.symbol.ty.name, false⟩ := hv p hmem hmany
      exact fun e he ↦ not_void_of_storable hvalued.ne_void (helements _ helement e he)

end Arguments

theorem Worth.result_ne_void {recv : Expr} {method : Ident}
    (h : s.Worth (.call recv method args pos) hint) :
    (s.callTyping recv method.name).valType hint ≠ .void :=
  Typing.valType_ne_void (h.yields recv method args pos rfl) h.hint

/-- An expression of which the checker does not let a call without a result pass has a value. -/
theorem Worth.of_refuse {accepts : Ty → Bool} {fault : String → Fault}
    (hc : s.Checked s.Filled e) (h : s.refuse accepts fault e pos = [])
    (hvoid : accepts .void = false) (hhint : hint.getD .int ≠ .void) : s.Worth e hint :=
  ⟨hc, yields_of_typing (not_void_of_refuse h hvoid), hhint⟩

theorem hint_of_inOrder {hints : List ValType} (hhints : ∀ v ∈ hints, v ≠ .void) {es : List Expr}
    {p : Expr × Option ValType} (h : p ∈ inOrder hints es) : p.2.getD .int ≠ .void := by
  induction es generalizing hints with
  | nil => exact absurd h List.not_mem_nil
  | cons e es ih =>
    rcases List.mem_cons.1 h with rfl | h
    · cases hints with
      | nil => exact nofun
      | cons v hints => exact hhints v List.mem_cons_self
    · exact ih (fun v hv ↦ hhints v (List.mem_of_mem_tail hv)) h

section Parts

variable (hd : s.symbols.DeclaresValues) (hs : s.Own)
  (hw : ∀ name m, s.symbols.method? name = some m → m.WellFormed)

include hd

theorem gathered_of_packing {recv : Expr} {method : String} {args : List Expr} {p : Parameter}
    (h : s.packing? (s.target? recv method) args = some p) :
    (ValType.ofTy p.symbol.ty).Valued := by
  obtain ⟨m, hm, -, hv⟩ := packing_eq_some h
  obtain ⟨hparams, hmany⟩ := Signature.mem_of_varargs hv
  have hmem : p ∈ m.params := hparams ▸ List.mem_append_right _ (List.mem_singleton_self p)
  have hmethod := Symbols.mem_of_method? (method?_of_target hm)
  exact ValType.valued_ofTy (hd.gathered m hmethod p hmem hmany)

theorem hint_of_argParts {recv : Expr} {method : String} {args : List Expr}
    {p : Expr × Option ValType} (h : p ∈ s.argParts (s.target? recv method) args) :
    p.2.getD .int ≠ .void := by
  have hhints : ∀ v ∈ paramHints (s.target? recv method), v ≠ .void := by
    cases hm : s.target? recv method with
    | none => nofun
    | some m =>
      have hmethod := Symbols.mem_of_method? (method?_of_target hm)
      exact List.forall_mem_map.2 fun q hq ↦ ValType.ofTy_ne_void (hd.params m hmethod q hq)
  unfold argParts at h
  split at h
  · exact hint_of_inOrder hhints h
  · next q hq =>
    rcases List.mem_append.1 h with h | h
    · exact hint_of_inOrder hhints h
    · obtain ⟨e, -, rfl⟩ := List.mem_map.1 h
      exact (gathered_of_packing hd hq).element_ne_void

include hw

/-- What a call is made on and what it passes have values. -/
theorem worth_of_call {recv : Expr} {method : Ident} {args : List Expr}
    (h : s.Checked s.Filled (.call recv method args pos)) (hint : Option ValType) :
    ∀ p ∈ s.parts (.call recv method args pos) hint, s.Worth p.1 p.2 := by
  intro p hp
  have hchild := h.child (mem_children_of_parts hp)
  obtain ⟨hparts, hcall⟩ := List.append_eq_nil_iff.1 h.check
  rcases List.mem_append.1 hp with hp | hp
  · split_ifs at hp with hnamed
    · exact absurd hp List.not_mem_nil
    · obtain rfl := List.mem_singleton.1 hp
      refine ⟨hchild, yields_of_typing fun hvoid ↦ ?_, nofun⟩
      have hnone : s.className? recv = none := by simpa using hnamed
      have hcls := receiverClass_of_check hnone hvoid hcall
      simp [receiverClass, dispatch, hnone, hvoid, Ty.isObject, Ty.void] at hcls
  · refine ⟨hchild, yields_of_typing ?_, hint_of_argParts hd hp⟩
    have hmem := mem_of_argParts hp
    cases hm : s.target? recv method.name with
    | none => exact h.everywhere.here hm p.1 hmem
    | some m =>
      have hmatches := (checkCall_eq_nil_iff.1 hcall).arguments m hm
      have hwf := hw _ m (method?_of_target hm)
      have hmethod := Symbols.mem_of_method? (method?_of_target hm)
      exact not_void_of_matches (hd.params m hmethod) (hd.gathered m hmethod) hwf hmatches p.1 hmem

/-- The parts of an expression that has a value have values. -/
theorem Worth.part (h : s.Worth e hint) : ∀ p ∈ s.parts e hint, s.Worth p.1 p.2 := by
  intro p hp
  have hchild := h.checked.child (mem_children_of_parts hp)
  have hcheck := h.checked.check
  cases e with
  | int | bool | ident | this | newObject => exact absurd hp List.not_mem_nil
  | paren e pos =>
    obtain rfl := List.mem_singleton.1 hp
    exact ⟨hchild, h.yields, h.hint⟩
  | call recv method args pos => exact worth_of_call hd hw h.checked hint p hp
  | array elems pos =>
    obtain ⟨e, he, rfl⟩ := List.mem_map.1 hp
    have hvalued := h.checked.everywhere.here e he
    exact ⟨hchild, yields_of_typing fun hvoid ↦ (hvalued _ hvoid).ne_void rfl,
      (valued_literalElement h.checked.everywhere).ne_void⟩
  | binary op left right pos =>
    simp only [check, List.append_eq_nil_iff] at hcheck
    obtain ⟨⟨-, hleft⟩, hright⟩ := hcheck
    have hvoid : (Ty.void == op.operandTy) = false := by cases op <;> rfl
    have hboth (v : ValType) (hv : v ≠ .void) (hp : p ∈ [(left, some v), (right, some v)]) :
        s.Worth p.1 p.2 := by
      rcases List.mem_pair.1 hp with rfl | rfl
      · exact .of_refuse hchild hleft hvoid hv
      · exact .of_refuse hchild hright hvoid hv
    cases op with
    | arith op => exact hboth .int (by simp) hp
    | less => exact hboth .int (by simp) hp
    | and => exact hboth .bool (by simp) hp
  | not e pos | length e pos | newArray e pos =>
    obtain rfl := List.mem_singleton.1 hp
    obtain ⟨-, hrefuse⟩ := List.append_eq_nil_iff.1 hcheck
    exact .of_refuse hchild hrefuse rfl (by simp)
  | index base idx pos =>
    simp only [check, List.append_eq_nil_iff] at hcheck
    obtain ⟨⟨-, hbase⟩, hidx⟩ := hcheck
    rcases List.mem_pair.1 hp with rfl | rfl
    · exact .of_refuse hchild hbase rfl (by simp)
    · exact .of_refuse hchild hidx rfl (by simp)

include hs

theorem Worth.valueTy (h : s.Worth e hint) (n : Numbering) :
    s.ValueTy e hint (s.lower e hint n).value.ty := by
  induction e using Expr.children_induction generalizing hint n with
  | step e ih =>
    cases e with
    | int | bool | this | not | length | newArray => exact .valued trivial
    | binary op left right pos => cases op <;> exact .valued trivial
    | ident id => exact valueTy_lowerIdent hd hs id hint n
    | paren e pos =>
      have hpart := h.part hd hw (e, hint) (List.mem_singleton_self _)
      have hvalue := ih e (List.mem_singleton_self e) hpart n
      exact hvalue.of_typing_eq rfl
    | index base idx pos =>
      have hpart := h.part hd hw (base, none) List.mem_cons_self
      have hbase := ih base List.mem_cons_self hpart n
      exact hbase.of_element h.checked.everywhere.here
    | call recv method args pos =>
      have hret := ret_lowerCallWith (s := s) (n := n) recv method args hint (s.lower recv none)
        (s.lowerEach args)
      have hvalue : s.ValueTy (.call recv method args pos) hint _ :=
        .of_typing (h.yields recv method args pos rfl)
      have hty := hret.symm ▸ hvalue
      exact hty
    | newObject cls pos =>
      obtain ⟨x, hx⟩ := lower_newObject_value cls pos hint n
      rw [hx]
      exact .valued trivial
    | array elems pos => exact .valued (valued_literalElement h.checked.everywhere)

theorem Gives.valueTy {v : Operand} (hv : s.Gives e hint v) (h : s.Worth e hint) :
    s.ValueTy e hint v.ty := by
  obtain ⟨n, rfl⟩ := hv
  exact h.valueTy hd hs hw n

theorem Gives.ne_void {v : Operand} (hv : s.Gives e hint v) (h : s.Worth e hint) : v.ty ≠ .void :=
  (hv.valueTy hd hs hw h).ne_void h.hint

omit hs in
theorem Worth.throughout (h : s.Worth e hint) : s.Throughout s.Worth e hint := by
  induction e using Expr.children_induction generalizing hint with
  | step e ih =>
    exact .intro e hint h fun p hp ↦ ih p.1 (mem_children_of_parts hp) (h.part hd hw p hp)

end Parts

section Statements

variable (s) in
structure WorthStmt (stmt : Stmt) : Prop where
  checked : s.CheckedStmt s.Filled stmt
  filled : s.FilledStmt stmt

section

variable {target : Ident} {index : Option Expr} {value : Expr}

theorem ProperStore.not_void {name : String} {indexed : Bool} {t : Ty} (ht : t ≠ .void)
    (hollow : indexed = true → t ≠ Ty.void.arrayOf) (h : s.ProperStore name indexed value)
    (hty : s.declaredTy? name = some t) : s.typing value ≠ .known .void := by
  cases indexed with
  | false => exact not_void_of_storable ht (h.whole rfl t hty)
  | true =>
    obtain ⟨u, hu, hmeets⟩ := h.element rfl t hty
    have hvalued : t.Valued := (Ty.valued_or_of_ne_void ht).resolve_right (hollow rfl)
    exact not_void_of_storable (hvalued.element hu).ne_void hmeets

/-- An assigned value has a value, and what it is assigned to holds values. -/
theorem WorthStmt.store (hd : s.symbols.DeclaresValues) (hs : s.Own)
    (h : s.WorthStmt (.assign target index value pos)) {ty : ValType}
    (hty : s.targetTy? target.name index.isSome value = some ty) :
    s.typing value ≠ .known .void ∧ ty ≠ .void ∧
      (index.isSome = true → ty.element?.getD .int ≠ .void) := by
  obtain ⟨-, htarget⟩ := List.append_eq_nil_iff.1 h.checked.check
  have hstore := checkTarget_eq_nil_iff.1 htarget
  have hdeclared {t : Ty} (ht : s.declaredTy? target.name = some t) :
      s.typing value ≠ .known .void ∧ ValType.ofTy t ≠ .void ∧
        (index.isSome = true → (ValType.ofTy t).element?.getD .int ≠ .void) := by
    have hne := ne_void_of_declaredTy hd hs ht
    have hollow (hindex : index.isSome = true) : t ≠ Ty.void.arrayOf := by
      rintro rfl
      exact h.filled.2 hindex ht
    refine ⟨hstore.not_void hne hollow ht, ValType.ofTy_ne_void hne, fun hindex ↦ ?_⟩
    have hvalued := (Ty.valued_or_of_ne_void hne).resolve_right (hollow hindex)
    exact (ValType.valued_ofTy hvalued).element_ne_void
  simp only [targetTy?, storage?, fieldTy?] at hty
  cases hb : s.binding target.name with
  | param | «local» | field =>
    simp only [hb, Option.some.injEq] at hty
    subst hty
    exact hdeclared (by rw [declaredTy?, hb])
  | inherited =>
    simp only [hb, Option.some.injEq] at hty
    subst hty
    have hne := h.filled.1 hb
    have hvalue : s.valType value none ≠ .void := Typing.valType_ne_void hne (by simp)
    refine ⟨hne, ?_⟩
    cases index with
    | none => exact ⟨hvalue, by simp⟩
    | some i => exact ⟨by simp, fun _ ↦ hvalue⟩
  | cls | undeclared => simp [hb] at hty

end

variable (hd : s.symbols.DeclaresValues) (hs : s.Own)
  (hw : ∀ name m, s.symbols.method? name = some m → m.WellFormed)

include hd hs hw

/-- The expressions whose values a statement uses have values. -/
theorem WorthStmt.part (hm : s.method = some m) {stmt : Stmt} (h : s.WorthStmt stmt) :
    ∀ p ∈ s.stmtParts stmt, s.Worth p.1 p.2 := by
  intro p hp
  have hpart := h.checked.part hm hp
  cases stmt with
  | var | block => exact absurd hp List.not_mem_nil
  | ifThen cond body pos | «while» cond body pos =>
    obtain rfl := List.mem_singleton.1 hp
    obtain ⟨hcond, -⟩ := List.append_eq_nil_iff.1 h.checked.check
    exact .of_refuse hpart (List.append_eq_nil_iff.1 hcond).2 rfl (by simp)
  | ifElse cond body other pos =>
    obtain rfl := List.mem_singleton.1 hp
    obtain ⟨hcheck, -⟩ := List.append_eq_nil_iff.1 h.checked.check
    obtain ⟨hcond, -⟩ := List.append_eq_nil_iff.1 hcheck
    exact .of_refuse hpart (List.append_eq_nil_iff.1 hcond).2 rfl (by simp)
  | expr e pos =>
    have he := h.checked.expr hm e (List.mem_singleton_self e)
    simp only [stmtParts] at hp
    split at hp
    · next hcall => exact worth_of_call hd hw (hcall ▸ he.unparen) _ p hp
    · exact absurd hp List.not_mem_nil
    · next hcall _ =>
      obtain rfl := List.mem_singleton.1 hp
      exact ⟨he, fun recv method args pos heq ↦ absurd heq (hcall recv method args pos), by simp⟩
  | assign target index value pos =>
    simp only [stmtParts] at hp
    split at hp
    · exact absurd hp List.not_mem_nil
    · next ty hty =>
      obtain rfl := List.mem_singleton.1 hp
      obtain ⟨hne, hholds, -⟩ := h.store hd hs hty
      exact ⟨hpart, yields_of_typing hne, hholds⟩
    · next ty i hty =>
      obtain ⟨hne, -, helement⟩ := h.store hd hs hty
      rcases List.mem_pair.1 hp with rfl | rfl
      · obtain ⟨hcheck, -⟩ := List.append_eq_nil_iff.1 h.checked.check
        obtain ⟨-, hindex⟩ := List.append_eq_nil_iff.1 hcheck
        obtain ⟨-, hrefuse⟩ := List.append_eq_nil_iff.1 hindex
        exact .of_refuse hpart hrefuse rfl (by simp)
      · exact ⟨hpart, yields_of_typing hne, helement rfl⟩
  | «return» value pos =>
    cases value with
    | none => exact absurd hp List.not_mem_nil
    | some e =>
      obtain rfl := List.mem_singleton.1 hp
      obtain ⟨hproper, -⟩ := (checkReturn_eq_nil_iff hm).1 h.checked.check
      obtain ⟨hret, hmeets⟩ := hproper m hm
      have hreturn : s.returnTy = .ofTy m.ret := by rw [returnTy, hm, Option.elim_some]
      refine ⟨hpart, yields_of_typing (not_void_of_storable hret hmeets), ?_⟩
      rw [hreturn]
      exact ValType.ofTy_ne_void hret

theorem StmtThroughout.worth (hm : s.method = some m) {stmt : Stmt}
    (h : s.StmtThroughout (fun e _ ↦ s.Checked s.Filled e) (s.CheckedStmt s.Filled) stmt)
    (hf : ∀ x, Stmt.Within x stmt → s.FilledStmt x) :
    s.StmtThroughout s.Worth s.WorthStmt stmt := by
  induction h with
  | intro stmt hstmt _ _ ih =>
    rw [forall_within_iff] at hf
    have hworth : s.WorthStmt stmt := ⟨hstmt, hf.1⟩
    exact .intro stmt hworth (fun p hp ↦ (hworth.part hd hs hw hm p hp).throughout hd hw)
      fun x hx ↦ ih x hx (hf.2 x hx)

end Statements

end Scope

end MiniJava

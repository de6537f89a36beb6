import MiniJava.Proofs.Checking.Arguments
import MiniJava.Proofs.Checking.Throughout

namespace MiniJava

open Tac Lower

namespace Scope

variable {s : Scope} {target : Ident} {idx value : Expr} {pos : Position} {m : Signature}
  {E : Expr → Option ValType → Prop} {S : Stmt → Prop}

def declaredTy? (s : Scope) (name : String) : Option Ty :=
  match s.binding name with
  | .param _ p => some p.symbol.ty
  | .local v | .field v => some v.ty
  | .cls | .inherited | .undeclared => none

theorem declared_of_storage {name : String} {x : Operand} (h : s.storage? name = some x) :
    ∃ t, s.declaredTy? name = some t ∧ x.ty = .ofTy t := by
  obtain ⟨i, p, hb, rfl⟩ | ⟨v, hb, rfl⟩ := storage_cases h
  · exact ⟨p.symbol.ty, by rw [declaredTy?, hb], rfl⟩
  · exact ⟨v.ty, by rw [declaredTy?, hb], rfl⟩

theorem declared_of_fieldTy {name : String} {indexed : Bool} {ty : ValType}
    (h : s.fieldTy? name indexed value = some ty) :
    (∃ t, s.declaredTy? name = some t ∧ ty = .ofTy t) ∨
      ty = if indexed then .array (s.valType value none) else s.valType value none := by
  unfold fieldTy? at h
  unfold declaredTy?
  cases hb : s.binding name with
  | field f =>
    rw [hb] at h
    exact .inl ⟨_, rfl, (Option.some.inj h).symm⟩
  | inherited =>
    rw [hb] at h
    exact .inr (Option.some.inj h).symm
  | param | «local» | cls | undeclared => simp [hb] at h

theorem checkTarget_of_declared {indexed : Bool} {t : Ty}
    (h : s.declaredTy? target.name = some t) :
    s.checkTarget target indexed value pos = s.checkStore target indexed t value pos := by
  unfold declaredTy? at h
  unfold checkTarget
  cases hb : s.binding target.name with
  | param | «local» | field =>
    rw [hb] at h
    obtain rfl := Option.some.inj h
    rfl
  | cls | inherited | undeclared => simp [hb] at h

theorem accepts_of_checkStore {t : Ty} (h : s.checkStore target false t value pos = []) :
    s.Accepts t value := fun _ hty ↦ accepts_of_refuse h hty

theorem element_of_checkStore {t : Ty} (h : s.checkStore target true t value pos = []) :
    t.isArray = true ∧ s.Accepts ⟨t.name, false⟩ value := by
  simp only [checkStore, if_true, Ty.element?] at h
  cases harray : t.isArray with
  | false => simp [harray] at h
  | true =>
    simp only [harray, if_true] at h
    exact ⟨rfl, fun _ hty ↦ accepts_of_refuse h hty⟩

/-- A value may go where a type in generated code is wanted. Inherited members are taken to have the
type of the value itself. -/
def Suits (s : Scope) (ty : ValType) (value : Expr) : Prop :=
  (∃ t, ty = .ofTy t ∧ s.Accepts t value) ∨ ty = s.valType value none

theorem suits_storage (h : s.checkStmt (.assign target none value pos) = []) {x : Operand}
    (hx : s.storage? target.name = some x) : s.Suits x.ty value := by
  obtain ⟨t, ht, hty⟩ := declared_of_storage hx
  obtain ⟨-, htarget⟩ := List.append_eq_nil_iff.1 h
  rw [Option.isSome_none, checkTarget_of_declared ht] at htarget
  exact .inl ⟨t, hty, accepts_of_checkStore htarget⟩

theorem suits_field (h : s.checkStmt (.assign target none value pos) = []) {ty : ValType}
    (hx : s.fieldTy? target.name false value = some ty) : s.Suits ty value := by
  rcases declared_of_fieldTy hx with ⟨t, ht, rfl⟩ | rfl
  · obtain ⟨-, htarget⟩ := List.append_eq_nil_iff.1 h
    rw [Option.isSome_none, checkTarget_of_declared ht] at htarget
    exact .inl ⟨t, rfl, accepts_of_checkStore htarget⟩
  · exact .inr rfl

/-- An indexed assignment stores in an array, in one of the value's type if it is inherited. -/
theorem suits_element (h : s.checkStmt (.assign target (some idx) value pos) = []) {a : Operand}
    (ha : s.StoreArray target value a) : ∃ ty, a.ty = .array ty ∧ s.Suits ty value := by
  obtain ⟨-, htarget⟩ := List.append_eq_nil_iff.1 h
  have hdeclared {t : Ty} (ht : s.declaredTy? target.name = some t) (hty : a.ty = .ofTy t) :
      ∃ ty, a.ty = .array ty ∧ s.Suits ty value := by
    rw [Option.isSome_some, checkTarget_of_declared ht] at htarget
    obtain ⟨harray, haccepts⟩ := element_of_checkStore htarget
    exact ⟨.ofTy ⟨t.name, false⟩, by simp [hty, ValType.ofTy, harray], .inl ⟨_, rfl, haccepts⟩⟩
  rcases ha with ha | ⟨ty, x, hfield, rfl⟩
  · obtain ⟨t, ht, hty⟩ := declared_of_storage ha
    exact hdeclared ht hty
  · rcases declared_of_fieldTy hfield with ⟨t, ht, hty⟩ | hty
    · exact hdeclared ht hty
    · exact ⟨s.valType value none, hty, .inr rfl⟩

/-- The parameter that arguments are gathered for is the last one of a method of the class. -/
theorem packing_eq_some {recv : Expr} {method : String} {args : List Expr} {p : Parameter}
    (h : s.packing? (s.target? recv method) args = some p) :
    ∃ m, s.target? recv method = some m ∧ s.packed? m args = some p ∧ m.varargs? = some p := by
  obtain ⟨m, hm, hp⟩ := Option.bind_eq_some_iff.1 h
  exact ⟨m, hm, hp, (Option.filter_eq_some_iff.1 hp).1⟩

theorem method?_of_target {recv : Expr} {method : String} (h : s.target? recv method = some m) :
    s.symbols.method? method = some m := by
  unfold target? at h
  split at h
  · split at h
    · exact h
    · exact absurd h nofun
  · exact absurd h nofun

/-- Whatever elements are taken of is an array, as soon as the bases of index expressions are. -/
theorem Indexed.ty_eq (hw : ∀ name m, s.symbols.method? name = some m → m.WellFormed)
    (hbase : ∀ base idx pos hint a, E (.index base idx pos) hint → s.Gives base none a →
      ∃ ty, a.ty = .array ty)
    (hs : ∀ stmt, S stmt → s.checkStmt stmt = []) {a i : Operand} {ty : ValType}
    (h : s.Indexed E S a i ty) : a.ty = .array ty := by
  cases h with
  | read he ha hi hty =>
    obtain ⟨t, ht⟩ := hbase _ _ _ _ _ he ha
    rw [hty, ht]
    rfl
  | element => rfl
  | argument x i hp =>
    obtain ⟨m, hm, -, hv⟩ := packing_eq_some hp
    have harray := (hw _ m (method?_of_target hm)).array_of_varargs hv
    exact (Parameter.ofTy_eq_array harray).1
  | stored hstmt ha hty hi =>
    obtain ⟨t, ht, -⟩ := suits_element (hs _ hstmt) ha
    rw [hty, ht]
    rfl

end Scope

end MiniJava

import MiniJava.Proofs.Checking.Calls
import MiniJava.Proofs.Lowering.ExprRules
import MiniJava.Proofs.Lowering.Values
import MiniJava.Proofs.Semantics.Typed

namespace MiniJava

open Tac Lower

def Signature.WellFormed (m : Signature) : Prop :=
  ∀ p ∈ m.params, p.isVarargs = true → p.symbol.ty.isArray = true

theorem Symbols.mem_of_method? {t : Symbols} {name : String} {m : Signature}
    (h : t.method? name = some m) : m ∈ t.methods := by
  rw [Symbols.method?, List.findRev?_eq_findRev?TR, List.findRev?TR] at h
  exact List.mem_reverse.1 (List.mem_of_find?_eq_some h)

theorem Program.wellFormed {p : Program} {name : String} {m : Signature}
    (h : p.symbols.method? name = some m) : m.WellFormed := by
  obtain ⟨d, -, rfl⟩ := List.mem_map.1 (Symbols.mem_of_method? h)
  intro q hq hv
  obtain ⟨q, -, rfl⟩ := List.mem_map.1 hq
  simp only [ParamDecl.parameter] at hv
  simp [ParamDecl.parameter, TypeExpr.ty, hv]

theorem Signature.mem_of_varargs {m : Signature} {p : Parameter} (h : m.varargs? = some p) :
    m.params = m.params.take m.fixedCount ++ [p] ∧ p.isVarargs = true := by
  obtain ⟨hlast, hv⟩ := Option.filter_eq_some_iff.1 h
  obtain ⟨init, hinit⟩ := List.getLast?_eq_some_iff.1 hlast
  have hfixed : m.fixedCount = init.length := by
    simp [Signature.fixedCount, Signature.hasVarargs, h, hinit]
  refine ⟨?_, hv⟩
  rw [hfixed, hinit, List.take_left]

theorem Signature.WellFormed.array_of_varargs {m : Signature} (hw : m.WellFormed) {p : Parameter}
    (hp : m.varargs? = some p) : p.symbol.ty.isArray = true := by
  obtain ⟨hparams, hv⟩ := Signature.mem_of_varargs hp
  exact hw p (hparams ▸ List.mem_append_right _ (List.mem_singleton_self p)) hv

theorem Parameter.ofTy_eq_array {p : Parameter} (h : p.symbol.ty.isArray = true) :
    ValType.ofTy p.symbol.ty = .array p.element ∧
      p.element = .ofTy ⟨p.symbol.ty.name, false⟩ := by
  simp [Parameter.element, ValType.ofTy, ValType.element?, h]

theorem Tac.ValType.isObject_ofTy {t : Ty} (h : t.isObject = true) : (ofTy t).IsObject := by
  simp only [Ty.isObject, Ty.isPrimitive, Bool.and_eq_true, Bool.not_eq_true', bne_iff_ne,
    Bool.or_eq_false_iff, beq_eq_false_iff_ne] at h
  obtain ⟨⟨harray, hint, hbool⟩, hvoid⟩ := h
  simp only [ofTy, harray, Bool.false_eq_true, if_false, ofName, hint, hbool, hvoid]
  split <;> trivial

namespace Scope

variable {s : Scope} {m : Signature} {args : List Expr} {pos : Position} {e : Expr}

def Accepts (s : Scope) (target : Ty) (e : Expr) : Prop :=
  ∀ ty, s.typing e = .known ty → s.assignable target ty = true

theorem compatible_of_assignable {target ty : Ty} (h : s.assignable target ty = true) :
    (ValType.ofTy ty).Compatible (.ofTy target) := by
  simp only [assignable, Bool.or_eq_true, beq_iff_eq, Bool.and_eq_true] at h
  rcases h with rfl | ⟨⟨ht, hv⟩, -⟩
  · exact .refl _
  · exact .inr ⟨Tac.ValType.isObject_ofTy hv, Tac.ValType.isObject_ofTy ht⟩

theorem assignable_self (ty : Ty) : s.assignable ty ty = true := by simp [assignable]

theorem not_assignable_array {target ty : Ty} (ht : target.isArray = false)
    (hv : ty.isArray = true) : s.assignable target ty = false := by
  have hne : target ≠ ty := by
    rintro rfl
    exact Bool.false_ne_true (ht.symm.trans hv)
  simp [assignable, hne, Ty.isObject, hv]

/-- The value of an accepted expression fits the place that it is meant for. -/
theorem Accepts.compatible {target : Ty} (h : s.Accepts target e) (hn : s.symbols.NamesApart)
    (hc : s.check e = []) (hk : ∃ ty, s.typing e = .known ty) {hint : Option ValType} {v : Operand}
    (hv : s.Gives e hint v) : v.ty.Compatible (.ofTy target) := by
  obtain ⟨ty, hty⟩ := hk
  rw [hv.ty_eq hn hc hty]
  exact compatible_of_assignable (h ty hty)

theorem accepts_fixed (h : s.checkArguments m args pos = []) :
    List.Forall₂ (fun p e ↦ s.Accepts p.symbol.ty e) (m.params.take m.fixedCount)
      (args.take m.fixedCount) := by
  obtain ⟨hle, -⟩ := count_of_checkArguments h
  unfold checkArguments at h
  split_ifs at h
  obtain ⟨hfixed, -⟩ := List.append_eq_nil_iff.1 h
  rw [List.forall₂_iff_get]
  have hcount : m.fixedCount ≤ m.params.length := by
    unfold Signature.fixedCount
    split <;> omega
  refine ⟨by simp only [List.length_take]; omega, fun i hi hi' ty hty ↦ ?_⟩
  simp only [List.get_eq_getElem] at hty ⊢
  have hlen : i < ((m.params.take m.fixedCount).zip args).length := by
    simp only [List.length_take, List.length_zip] at hi hi' ⊢
    omega
  have hmem := List.getElem_mem (l := ((m.params.take m.fixedCount).zip args).zipIdx)
    (n := i) (by simpa using hlen)
  have hcheck := List.flatMap_eq_nil_iff.1 hfixed _ hmem
  simp only [List.getElem_zipIdx, List.getElem_zip] at hcheck
  rw [List.getElem_take] at hty
  exact accepts_of_refuse hcheck hty

theorem accepts_tail (h : s.checkArguments m args pos = []) {p : Parameter}
    (hv : m.varargs? = some p) :
    (args.drop m.fixedCount).map (s.typing ·) = [.known p.symbol.ty] ∨
      ∀ element, p.symbol.ty.element? = some element →
        ∀ e ∈ args.drop m.fixedCount, s.Accepts element e := by
  unfold checkArguments at h
  split_ifs at h
  obtain ⟨-, htail⟩ := List.append_eq_nil_iff.1 h
  rw [hv] at htail
  simp only [checkTail] at htail
  split_ifs at htail with hwhole
  · exact .inl hwhole
  · refine .inr fun element helement e he ty hty ↦ ?_
    rw [helement] at htail
    obtain ⟨i, hi⟩ := List.getElem?_of_mem he
    have hmem : (e, m.fixedCount + i) ∈ (args.drop m.fixedCount).zipIdx m.fixedCount :=
      List.mk_add_mem_zipIdx_iff_getElem?.2 hi
    exact accepts_of_refuse (List.flatMap_eq_nil_iff.1 htail _ hmem) hty

/-- A single last argument that may be an array is passed on as it is. -/
theorem lone_of_packed? {p : Parameter} (hv : m.varargs? = some p)
    (hp : s.packed? m args = none) :
    ∃ e, args.drop m.fixedCount = [e] ∧ ∀ ty, s.typing e = .known ty → ty.isArray = true := by
  rw [← gathered?_eq_packed?, gathered?, hv] at hp
  split at hp
  · next e he =>
    refine ⟨e, he, fun ty hty ↦ ?_⟩
    simpa [Option.filter, hty, Typing.known?] using hp
  · cases hp

/-- Arguments that are gathered into an array fit its elements. -/
theorem accepts_packed (h : s.checkArguments m args pos = []) (hw : m.WellFormed) {p : Parameter}
    (hp : s.packed? m args = some p) :
    ∀ e ∈ args.drop m.fixedCount, s.Accepts ⟨p.symbol.ty.name, false⟩ e := by
  have hv := (Option.filter_eq_some_iff.1 hp).1
  have harray := hw.array_of_varargs hv
  rcases accepts_tail h hv with htail | helements
  · -- One whole array would not have been gathered.
    obtain ⟨e, hdrop, hty⟩ := List.map_eq_singleton_iff.1 htail
    rw [← gathered?_eq_packed?, gathered?, hdrop, hv] at hp
    simp [Option.filter, hty, Typing.known?, harray] at hp
  · exact helements _ (if_pos harray)

/-- Values that are made in order fit the parameters that they are made for. -/
theorem fit_inOrder (hn : s.symbols.NamesApart) {ps : List Parameter} {es : List Expr}
    (ha : List.Forall₂ (fun p e ↦ s.Accepts p.symbol.ty e) ps es)
    (hc : ∀ e ∈ es, s.check e = [] ∧ ∃ ty, s.typing e = .known ty) {hints : List ValType}
    {vs : List Operand}
    (hv : List.Forall₂ (fun q v ↦ s.Gives q.1 q.2 v) (inOrder hints es) vs) :
    List.Forall₂ (fun p v ↦ v.ty.Compatible (.ofTy p.symbol.ty)) ps vs := by
  induction ha generalizing hints vs with
  | nil =>
    cases hv
    exact .nil
  | cons hp _ ih =>
    obtain ⟨⟨hcheck, hknown⟩, hcs⟩ := List.forall_mem_cons.1 hc
    cases hv with
    | cons hgives hvs => exact .cons (hp.compatible hn hcheck hknown hgives) (ih hcs hvs)

section

variable (hn : s.symbols.NamesApart)
  (hc : ∀ e ∈ args, s.check e = [] ∧ ∃ ty, s.typing e = .known ty) (n : Numbering)

include hn hc

theorem fit_lowerInOrder (ha : List.Forall₂ (fun p e ↦ s.Accepts p.symbol.ty e) m.params args)
    (hp : s.packed? m args = none) :
    List.Forall₂ (fun p v ↦ v.ty.Compatible (.ofTy p.symbol.ty)) m.params
      (s.lowerArgs (some m) args (args.map s.lower) n).value := by
  unfold lowerArgs
  simp only [Option.bind_some, hp]
  exact fit_inOrder hn ha hc (gives_lowerInOrder _ args n)

/-- The arguments of an accepted call fit the parameters, those gathered into an array included. -/
theorem fit_lowerArgs (h : s.checkArguments m args pos = []) (hw : m.WellFormed) :
    List.Forall₂ (fun p v ↦ v.ty.Compatible (.ofTy p.symbol.ty)) m.params
      (s.lowerArgs (some m) args (args.map s.lower) n).value := by
  have hfixed := accepts_fixed h
  cases hv : m.varargs? with
  | none =>
    have hno : m.hasVarargs = false := by simp [Signature.hasVarargs, hv]
    have hcount : m.fixedCount = m.params.length := by simp [Signature.fixedCount, hno]
    have hlen := (count_of_checkArguments h).2 hno
    rw [hcount, List.take_length, ← hlen, List.take_length] at hfixed
    refine fit_lowerInOrder hn hc n hfixed ?_
    simp [packed?, hv]
  | some p =>
    obtain ⟨hparams, -⟩ := Signature.mem_of_varargs hv
    have harray := hw.array_of_varargs hv
    cases hp : s.packed? m args with
    | none =>
      obtain ⟨e, hdrop, hwhole⟩ := lone_of_packed? hv hp
      have hlast : s.Accepts p.symbol.ty e := by
        intro ty hty
        rcases accepts_tail h hv with htail | helements
        · rw [hdrop] at htail
          obtain rfl := Typing.known.inj (hty.symm.trans (List.cons.inj htail).1)
          exact assignable_self _
        · have hmem : e ∈ args.drop m.fixedCount := hdrop ▸ List.mem_singleton_self e
          have helement := helements ⟨p.symbol.ty.name, false⟩ (if_pos harray) e hmem ty hty
          rw [not_assignable_array rfl (hwhole ty hty)] at helement
          exact absurd helement Bool.false_ne_true
      refine fit_lowerInOrder hn hc n ?_ hp
      rw [hparams, ← List.take_append_drop m.fixedCount args, hdrop]
      exact List.rel_append hfixed (.cons hlast .nil)
    | some q =>
      obtain rfl : p = q := Option.some.inj (hv.symm.trans (Option.filter_eq_some_iff.1 hp).1)
      have hcount := (fixedCount_of_varargs hv).1
      unfold lowerArgs
      simp only [Option.bind_some, hp, value_bind, Option.elim_some, pure_apply, ← hcount,
        ← List.map_take, ← List.map_drop]
      rw [hparams]
      refine List.rel_append (fit_inOrder hn hfixed (fun e he ↦ hc e (List.mem_of_mem_take he))
        (gives_lowerInOrder _ (args.take m.fixedCount) n)) (.cons ?_ .nil)
      exact .refl _

end

end Scope

end MiniJava

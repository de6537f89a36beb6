import MiniJava.Proofs.Checking.Accepted
import MiniJava.Proofs.Checking.Operands
import MiniJava.Proofs.Lowering.Issued

namespace MiniJava

open Tac Lower

def Tac.Operand.IsAtom : Operand → Prop
  | .elem .. => False
  | .lit .. | .var .. | .param .. | .this _ | .cls _ => True

theorem Tac.Operand.IsAtom.parts_eq {x : Operand} (h : x.IsAtom) : x.parts = [x] := by
  cases x with
  | elem => exact h.elim
  | lit | var | param | this | cls => rfl

def builtinNames : List String := ["int", "boolean", "void", "String"]

theorem Tac.ValType.ofTy_object {name : String} (h : name ∉ builtinNames) :
    ofTy (.object name) = .cls name := by
  simp only [builtinNames, List.mem_cons, List.not_mem_nil, or_false, not_or] at h
  obtain ⟨hint, hbool, hvoid, hstring⟩ := h
  simp [ofTy, ofName, Ty.object, hint, hbool, hvoid, hstring]

/-- No class is visible under the name of a type that the language has of its own. -/
def Symbols.NamesApart (t : Symbols) : Prop := ∀ name ∈ builtinNames, t.isClassName name = false

theorem Symbols.NamesApart.not_mem {t : Symbols} (h : t.NamesApart) {name : String}
    (hc : t.isClassName name) : name ∉ builtinNames := by
  intro hname
  rw [h name hname] at hc
  exact Bool.false_ne_true hc

theorem Symbols.NamesApart.ofTy_object {t : Symbols} (h : t.NamesApart) {name : String}
    (hc : t.isClassName name) : ValType.ofTy (.object name) = .cls name :=
  ValType.ofTy_object (h.not_mem hc)

theorem Symbols.isClassName_className (t : Symbols) : t.isClassName t.className := by
  simp [isClassName]

namespace Scope

variable {s : Scope} {n : Numbering} {e : Expr} {hint : Option ValType}

theorem isClassName_of_binding {name : String} (h : s.binding name = .cls) :
    s.symbols.isClassName name := by
  unfold binding methodBinding? at h
  split at h
  · next b hb =>
    subst h
    obtain ⟨m, -, hm⟩ := Option.bind_eq_some_iff.1 hb
    split at hm
    · exact absurd hm nofun
    · obtain ⟨v, -, hv⟩ := Option.map_eq_some_iff.1 hm
      exact absurd hv nofun
  · split at h
    · exact absurd h nofun
    · split at h
      · assumption
      · split at h <;> exact absurd h nofun

theorem lower_newObject_value (cls : Ident) (pos : Position) (hint : Option ValType)
    (n : Numbering) :
    ∃ x, (s.lower (.newObject cls pos) hint n).value = .var x (.cls cls.name) := by
  have hcreate : s.lower (.newObject cls pos) hint = s.lowerNewObject cls pos := rfl
  rw [hcreate, s.lowerNewObject_eq]
  split
  · exact ⟨_, rfl⟩
  · exact ⟨_, rfl⟩

theorem isAtom_lowerIdent (id : Ident) (hint : Option ValType) :
    (s.lowerIdent id hint n).value.IsAtom := by
  unfold lowerIdent
  cases s.binding id.name <;> trivial

/-- Elements are read before they are used. -/
theorem isAtom_lower (e : Expr) (hint : Option ValType) (n : Numbering) :
    (s.lower e hint n).value.IsAtom := by
  induction e using Expr.children_induction generalizing hint n with
  | step e ih =>
    cases e with
    | ident id => exact isAtom_lowerIdent id hint
    | binary op left right pos => cases op <;> trivial
    | paren e pos => exact ih e (List.mem_singleton_self e) hint n
    | newObject cls pos =>
      obtain ⟨x, hx⟩ := lower_newObject_value cls pos hint n
      rw [hx]
      trivial
    | int | bool | this | not | index | length | call | newArray | array => trivial

theorem Gives.isAtom {v : Operand} (h : s.Gives e hint v) : v.IsAtom := by
  obtain ⟨n, rfl⟩ := h
  exact isAtom_lower e hint n

theorem typing_base {base idx : Expr} {pos : Position} {ty : Ty}
    (h : s.typing (.index base idx pos) = .known ty) :
    ∃ t, s.typing base = .known t ∧ t.isArray = true ∧ ty = ⟨t.name, false⟩ := by
  simp only [typing] at h
  split at h
  · next t ht =>
    cases harray : t.isArray with
    | false => simp [Ty.element?, harray] at h
    | true =>
      refine ⟨t, ht, harray, ?_⟩
      simp only [Ty.element?, harray, if_true, Option.elim_some, Typing.known.injEq] at h
      exact h.symm
  · next hno => exact absurd h (hno ty)

theorem ty_lowerIdent {id : Ident} {ty : Ty} (h : s.identTyping id.name = .known ty)
    (hint : Option ValType) (n : Numbering) :
    (s.lowerIdent id hint n).value.ty = .ofTy ty ∨ ∃ name, s.symbols.isClassName name ∧
      ty = .object name ∧ (s.lowerIdent id hint n).value.ty = .cls name := by
  unfold identTyping at h
  unfold lowerIdent
  cases hb : s.binding id.name with
  | cls =>
    rw [hb] at h
    exact .inr ⟨id.name, isClassName_of_binding hb, (Typing.known.inj h).symm, rfl⟩
  | param | «local» | field =>
    rw [hb] at h
    obtain rfl := Typing.known.inj h
    exact .inl rfl
  | inherited | undeclared => exact absurd (hb ▸ h) nofun

/-- What is wanted of a value does not matter once its type is known. Generated code names the type
of an object after its class, which is visible or the one that the object is made of. -/
theorem ty_lower_of_known {Q : String → Prop} (hclass : ∀ name, s.symbols.isClassName name → Q name)
    (hnew : ∀ cls pos, e.unparen = .newObject cls pos → Q cls.name) {ty : Ty}
    (h : s.typing e = .known ty) (hint : Option ValType) (n : Numbering) :
    (s.lower e hint n).value.ty = .ofTy ty ∨
      ∃ name, Q name ∧ ty = .object name ∧ (s.lower e hint n).value.ty = .cls name := by
  induction e using Expr.children_induction generalizing hint n with
  | step e ih =>
    cases e with
    | paren e pos => exact ih e (List.mem_singleton_self e) hnew h hint n
    | ident id =>
      refine (ty_lowerIdent h hint n).imp_right ?_
      rintro ⟨name, hname, hty⟩
      exact ⟨name, hclass name hname, hty⟩
    | this pos =>
      have hname : Q s.symbols.className := hclass _ s.symbols.isClassName_className
      exact .inr ⟨_, hname, (Typing.known.inj h).symm, rfl⟩
    | newObject cls pos =>
      obtain ⟨x, hx⟩ := lower_newObject_value cls pos hint n
      exact .inr ⟨_, hnew cls pos rfl, (Typing.known.inj h).symm, congrArg Operand.ty hx⟩
    | binary op left right pos =>
      obtain rfl := Typing.known.inj h
      cases op <;> exact .inl rfl
    | int | bool | not | length | newArray =>
      obtain rfl := Typing.known.inj h
      exact .inl rfl
    | index base idx pos =>
      obtain ⟨t, ht, harray, rfl⟩ := typing_base h
      have hbase := fits_lower (s := s) (n := n) base
      rw [ht] at hbase
      have hty : (s.lower base none n).value.ty = .ofTy t :=
        hbase.resolve_right fun hr ↦ Bool.false_ne_true (hr.1.symm.trans harray)
      have helement : (s.lower base none n).value.ty.element?.getD (hint.getD .int) =
          .ofTy ⟨t.name, false⟩ := by
        simp [hty, ValType.ofTy, ValType.element?, harray]
      exact .inl helement
    | call recv method args pos =>
      have hret := ret_lowerCallWith (s := s) (n := n) recv method args hint (s.lower recv none)
        (s.lowerEach args)
      have htyping : s.callTyping recv method.name = .known ty := h
      rw [htyping] at hret
      exact .inl hret
    | array elems pos =>
      have hfits := @fits_array s elems pos
      rw [h] at hfits
      exact .inl (hfits.resolve_right fun hr ↦ ValType.noConfusion hr.2)

/-- The class of an object that the checker accepts is visible. -/
theorem ty_lower_cases (hc : s.check e = []) {ty : Ty} (h : s.typing e = .known ty)
    (hint : Option ValType) (n : Numbering) :
    (s.lower e hint n).value.ty = .ofTy ty ∨ ∃ name, s.symbols.isClassName name ∧
      ty = .object name ∧ (s.lower e hint n).value.ty = .cls name := by
  refine ty_lower_of_known (fun _ hname ↦ hname) (fun cls pos hnew ↦ ?_) h hint n
  have hmade : s.check e.unparen = [] := by rwa [check_unparen]
  simpa [hnew, check] using hmade

/-- The value of an expression of known type has that type. -/
theorem ty_lower (hn : s.symbols.NamesApart) (hc : s.check e = []) {ty : Ty}
    (h : s.typing e = .known ty) (hint : Option ValType) (n : Numbering) :
    (s.lower e hint n).value.ty = .ofTy ty := by
  rcases ty_lower_cases hc h hint n with hty | ⟨name, hname, rfl, hty⟩
  · exact hty
  · rw [hty, hn.ofTy_object hname]

theorem Gives.ty_eq {v : Operand} (hv : s.Gives e hint v) (hn : s.symbols.NamesApart)
    (hc : s.check e = []) {ty : Ty} (h : s.typing e = .known ty) : v.ty = .ofTy ty := by
  obtain ⟨n, rfl⟩ := hv
  exact ty_lower hn hc h hint n

/-- What is used as an array is one in generated code too. -/
theorem Gives.array_of_known {v : Operand} (hv : s.Gives e hint v) (hc : s.check e = []) {ty : Ty}
    (h : s.typing e = .known ty) (harray : ty.isArray = true) :
    v.ty = .array (.ofTy ⟨ty.name, false⟩) := by
  obtain ⟨n, rfl⟩ := hv
  rcases ty_lower_cases hc h hint n with hty | ⟨name, -, rfl, -⟩
  · rw [hty]
    simp [ValType.ofTy, harray]
  · exact absurd harray Bool.false_ne_true

/-- A call is made on a class or on a value, with the arguments that its target is given. -/
theorem GivesCall.cases {recv : Expr} {method : Ident} {args : List Expr} {k : Call}
    (h : s.GivesCall recv method args hint k) :
    k.ret = (s.callTyping recv method.name).valType hint ∧
      ∃ n, let vs := (s.lowerArgs (s.target? recv method.name) args (args.map s.lower) n).value
        (∃ cls, s.className? recv = some cls ∧ k.kind = .static cls method.name vs) ∨
          s.className? recv = none ∧ ∃ r, s.Gives recv none r ∧
            k.kind = .virtual r method.name vs := by
  obtain ⟨n, rfl⟩ := h
  refine ⟨ret_lowerCallWith .., ?_⟩
  unfold lowerCall lowerCallWith
  rw [s.lowerEach_eq_map]
  cases hnamed : s.className? recv with
  | some cls => exact ⟨n, .inl ⟨cls, rfl, rfl⟩⟩
  | none => exact ⟨(s.lower recv none n).next, .inr ⟨rfl, _, ⟨n, rfl⟩, rfl⟩⟩

theorem gives_lowerInOrder (hints : List ValType) (es : List Expr) (n : Numbering) :
    List.Forall₂ (fun p v ↦ s.Gives p.1 p.2 v) (inOrder hints es)
      (lowerInOrder hints (es.map s.lower) n).value := by
  induction es generalizing hints n with
  | nil => exact .nil
  | cons e es ih => exact .cons ⟨n, rfl⟩ (ih hints.tail _)

theorem gives_of_forall₂ {ps : List (Expr × Option ValType)} {vs : List Operand}
    (h : List.Forall₂ (fun p v ↦ s.Gives p.1 p.2 v) ps vs) :
    ∀ v ∈ vs, ∃ p ∈ ps, s.Gives p.1 p.2 v := by
  induction h with
  | nil => nofun
  | @cons p v ps vs hv _ ih =>
    refine List.forall_mem_cons.2 ⟨⟨p, List.mem_cons_self, hv⟩, fun w hw ↦ ?_⟩
    obtain ⟨q, hq, hgives⟩ := ih w hw
    exact ⟨q, List.mem_cons_of_mem p hq, hgives⟩

/-- What a call passes is the value of an argument or an array of such values. -/
theorem gives_lowerArgs (target : Option Signature) (args : List Expr) (n : Numbering) :
    ∀ v ∈ (s.lowerArgs target args (args.map s.lower) n).value,
      (∃ p ∈ s.argParts target args, s.Gives p.1 p.2 v) ∨ ∃ x ty, v = .var x ty := by
  unfold lowerArgs argParts packing?
  simp only
  cases target.bind (s.packed? · args) with
  | none => exact fun v hv ↦ .inl (gives_of_forall₂ (gives_lowerInOrder _ args n) v hv)
  | some p =>
    refine List.forall_mem_append.2 ⟨fun v hv ↦ ?_, List.forall_mem_singleton.2 (.inr ⟨_, _, rfl⟩)⟩
    rw [← List.map_take] at hv
    obtain ⟨q, hq, hgives⟩ := gives_of_forall₂ (gives_lowerInOrder _ _ n) v hv
    exact .inl ⟨q, List.mem_append_left _ hq, hgives⟩

end Scope

end MiniJava

import Mathlib.Tactic.ByContra
import MiniJava.Proofs.Assembly.Calls
import MiniJava.Proofs.Checking.Accepted
import MiniJava.Proofs.Checking.Operands

namespace MiniJava

open Tac Lower

structure Symbols.Describes (t : Symbols) (c : Tac.Class) : Prop where
  name : c.name = t.className
  method : ∀ name d, c.method? name = some d → ∃ m : Signature, t.method? name = some m ∧
    d.params.length = m.params.length ∧ d.ret = .ofTy m.ret

namespace Scope

variable {s : Scope} {n : Numbering} {m : Signature} {recv : Expr} {method : Ident}
  {args : List Expr} {pos : Position} {xs : List (Option ValType → Lower Operand)}

theorem length_lowerInOrder (hints : List ValType) :
    (lowerInOrder hints xs n).value.length = xs.length := by
  induction xs generalizing hints n with
  | nil => rfl
  | cons x xs ih =>
    have hrest := ih hints.tail (n := (x hints.head? n).next)
    exact congrArg (· + 1) hrest

theorem count_of_checkArguments (h : s.checkArguments m args pos = []) :
    m.fixedCount ≤ args.length ∧ (m.hasVarargs = false → args.length = m.params.length) := by
  unfold checkArguments at h
  split_ifs at h with hcount
  simp only [Bool.or_eq_true, Bool.and_eq_true, Bool.not_eq_true', decide_eq_true_eq, not_or,
    not_and, Nat.not_lt] at hcount
  refine ⟨hcount.1, fun hv ↦ ?_⟩
  have hle := hcount.2 hv
  have hfixed : m.fixedCount = m.params.length := by simp [Signature.fixedCount, hv]
  omega

theorem length_lowerArgs (h : s.checkArguments m args pos = []) (hlen : xs.length = args.length) :
    (s.lowerArgs (some m) args xs n).value.length = m.params.length := by
  obtain ⟨hle, heq⟩ := count_of_checkArguments h
  unfold lowerArgs
  cases hp : s.packed? m args with
  | none =>
    simp only [Option.bind_some, hp, length_lowerInOrder, hlen]
    cases hv : m.varargs? with
    | none => exact heq (by simp [Signature.hasVarargs, hv])
    | some v =>
      by_contra hne
      simp [packed?, hv, hne] at hp
  | some v =>
    have hv : m.varargs? = some v := (Option.filter_eq_some_iff.1 hp).1
    have hpos : m.params ≠ [] := by
      intro hnil
      simp [Signature.varargs?, hnil] at hv
    have hfixed : m.fixedCount = m.params.length - 1 := by
      simp [Signature.fixedCount, Signature.hasVarargs, hv]
    have hparams := List.length_pos_iff.2 hpos
    simp only [Option.bind_some, hp, value_bind, pure_apply, List.length_append,
      length_lowerInOrder, List.length_take, Option.elim_some, List.length_singleton]
    omega

theorem suits_of_check {c : Tac.Class} (hd : s.symbols.Describes c)
    (hcls : s.receiverClass recv = .ok s.symbols.className)
    (h : s.checkCall recv method args pos = []) (hlen : xs.length = args.length)
    (hint : Option ValType) :
    c.Suits c.name method.name (s.lowerArgs (s.target? recv method.name) args xs n).value
      ((s.callTyping recv method.name).valType hint) := by
  intro _ d hdecl
  obtain ⟨m, hm, hparams, hret⟩ := hd.method method.name d hdecl
  have htarget : s.target? recv method.name = some m := by simp [target?, hcls, hm]
  have htyping : s.callTyping recv method.name = .known m.ret := by
    simp [callTyping, hcls, methodTyping, Symbols.returnTy?, hm]
  have hcheck : s.checkArguments m args pos = [] := by
    simpa [checkCall, htyping, htarget] using h
  rw [htarget, htyping, hparams, hret]
  exact ⟨length_lowerArgs hcheck hlen, Iff.rfl⟩

theorem receiverClass_of_check {ty : Ty} (hnamed : s.className? recv = none)
    (ht : s.typing recv = .known ty) (h : s.checkCall recv method args pos = []) :
    s.receiverClass recv = .ok ty.name := by
  by_cases hobject : ty.isObject
  · simp [receiverClass, dispatch, hnamed, ht, hobject]
  · have htyping : s.callTyping recv method.name = .unknown := by
      simp [callTyping, receiverClass, dispatch, hnamed, ht, hobject]
    simp [checkCall, htyping, receiverText?, hnamed, ht, Typing.known?] at h

theorem ofTy_of_owner {ty : Ty} {cls : String} (h : Jasmin.owner? (.ofTy ty) = some cls) :
    ValType.ofTy ty = .string ∨ ValType.ofTy ty = .cls ty.name := by
  unfold ValType.ofTy ValType.ofName at h ⊢
  split_ifs at h ⊢
  all_goals first
    | exact .inl rfl
    | exact .inr rfl
    | exact absurd h nofun

/-- Foreign values are numbers or arrays in generated code, which no method is called on. -/
theorem known_of_owner {v : ValType} {t : Typing} (hfits : t.Fits v) (hknown : t ≠ .unknown)
    {cls : String} (h : Jasmin.owner? v = some cls) :
    ∃ ty, t = .known ty ∧ (v = .string ∨ v = .cls ty.name) := by
  cases t with
  | unknown => exact absurd rfl hknown
  | foreign =>
    rcases hfits with rfl | rfl
    · exact absurd h nofun
    · exact absurd h nofun
  | known ty =>
    refine ⟨ty, rfl, ?_⟩
    rcases hfits with rfl | ⟨-, hv⟩
    · exact ofTy_of_owner h
    · exact .inr hv

/-- A call that the checker accepts binds in generated code to the method that it was checked for,
unless its receiver has no known type or is a string that the class itself is taken for. -/
theorem binds_lowerCall {c : Tac.Class} (hd : s.symbols.Describes c)
    (hname : s.symbols.className ≠ Jasmin.stringPath)
    (h : s.checkCall recv method args pos = []) (hr : s.Resolved (.call recv method args pos))
    (hint : Option ValType) : (s.lowerCall recv method args hint n).value.Binds c := by
  have hlen : (s.lowerEach args).length = args.length := by
    rw [s.lowerEach_eq_map, List.length_map]
  unfold lowerCall lowerCallWith
  cases hnamed : s.className? recv with
  | some cls =>
    intro howner
    obtain rfl := howner
    have hcls : s.receiverClass recv = .ok s.symbols.className := by
      simp [receiverClass, dispatch, hnamed, hd.name]
    exact suits_of_check hd hcls h hlen hint rfl
  | none =>
    intro cls hcls howner d hdecl
    obtain ⟨m, hm, -⟩ := hd.method method.name d hdecl
    obtain ⟨ty, ht, hv⟩ := known_of_owner (fits_lower recv) (hr (by simp [hm])) hcls
    have hty : cls = ty.name := by
      rcases hv with hv | hv
      · rw [hv] at hcls
        exact absurd (hd.name ▸ howner ▸ (Option.some.inj hcls).symm) hname
      · rw [hv] at hcls
        exact (Option.some.inj hcls).symm
    subst hty
    have hclass := receiverClass_of_check hnamed ht h
    rw [howner, hd.name] at hclass
    exact suits_of_check hd hclass h hlen hint rfl d hdecl

end Scope

end MiniJava

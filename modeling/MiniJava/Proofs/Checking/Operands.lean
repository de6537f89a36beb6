import Mathlib.Tactic.SplitIfs
import MiniJava.Check.Expr
import MiniJava.Proofs.Lowering.Closure

namespace MiniJava

open Tac Lower

/-- What the type of a value in generated code tells of the typing that it was made for. -/
def Typing.Fits (v : ValType) : Typing → Prop
  | .known ty => v = .ofTy ty ∨ ty.isArray = false ∧ v = .cls ty.name
  | .foreign => v = .int ∨ v = .array .int
  | .unknown => True

namespace Typing

theorem fits_valType (t : Typing) : t.Fits (t.valType none) := by
  cases t with
  | known ty => exact .inl rfl
  | foreign => exact .inl rfl
  | unknown => trivial

theorem fits_object (name : String) : (known (.object name)).Fits (.cls name) := .inr ⟨rfl, rfl⟩

end Typing

theorem Tac.ValType.ofTy_arrayOf {t : Ty} (h : t.isArray = false) :
    ofTy t.arrayOf = .array (ofTy t) := by
  simp [ofTy, Ty.arrayOf, h]

namespace Scope

variable {s : Scope} {n : Numbering}

theorem fits_lowerIdent (id : Ident) :
    (s.identTyping id.name).Fits (s.lowerIdent id none n).value.ty := by
  unfold identTyping lowerIdent
  cases s.binding id.name with
  | param i p => exact .inl rfl
  | «local» v => exact .inl rfl
  | field f => exact .inl rfl
  | cls => exact Typing.fits_object _
  | inherited => exact .inl rfl
  | undeclared => trivial

theorem ret_lowerCallWith (recv : Expr) (method : Ident) (args : List Expr) (hint : Option ValType)
    (r : Lower Operand) (xs : List (Option ValType → Lower Operand)) :
    (s.lowerCallWith recv method args hint r xs n).value.ret =
      (s.callTyping recv method.name).valType hint := by
  unfold lowerCallWith
  cases s.className? recv with
  | some cls => rfl
  | none => rfl

theorem fits_element {base : Expr} {v : ValType} (h : (s.typing base).Fits v) {idx : Expr}
    {pos : Position} : (s.typing (.index base idx pos)).Fits (v.element?.getD .int) := by
  simp only [typing]
  cases ht : s.typing base with
  | unknown => trivial
  | foreign =>
    rw [ht] at h
    rcases h with rfl | rfl
    · exact .inl rfl
    · exact .inl rfl
  | known ty =>
    rw [ht] at h
    cases harray : ty.isArray with
    | false => simp [Ty.element?, harray, Typing.Fits]
    | true =>
      obtain rfl : v = .ofTy ty := h.resolve_right fun hr ↦ absurd hr.1 (by simp [harray])
      have helement : ty.element? = some ⟨ty.name, false⟩ := if_pos harray
      have hvalue : (ValType.ofTy ty).element? = some (.ofTy ⟨ty.name, false⟩) := by
        simp [ValType.ofTy, ValType.element?, harray]
      simp only [helement, hvalue]
      exact .inl rfl

theorem fits_array {elems : List Expr} {pos : Position} :
    (s.typing (.array elems pos)).Fits (.array (s.literalElement elems)) := by
  cases elems with
  | nil => exact .inl rfl
  | cons e es =>
    simp only [typing, literalElement, valType]
    cases s.typing e with
    | unknown => trivial
    | foreign => exact .inr rfl
    | known ty =>
      cases harray : ty.isArray with
      | true =>
        simp only [harray, if_true]
        trivial
      | false =>
        simp only [harray, Bool.false_eq_true, if_false]
        exact .inl (ValType.ofTy_arrayOf harray).symm

/-- The value of an expression has the type that the checker expects, if it expects one. -/
theorem fits_lower (e : Expr) : (s.typing e).Fits (s.lower e none n).value.ty := by
  induction e using Expr.children_induction generalizing n with
  | step e ih =>
    cases e with
    | int v pos => exact .inl rfl
    | bool v pos => exact .inl rfl
    | ident id => exact fits_lowerIdent id
    | this pos => exact Typing.fits_object _
    | binary op left right pos =>
      cases op with
      | arith op => exact .inl rfl
      | less => exact .inl rfl
      | and => exact .inl rfl
    | not e pos => exact .inl rfl
    | paren e pos => exact ih e (by simp [Expr.children])
    | index base idx pos => exact fits_element (ih base (by simp [Expr.children]))
    | length base pos => exact .inl rfl
    | call recv method args pos =>
      have hret := ret_lowerCallWith (s := s) (n := n) recv method args none (s.lower recv none)
        (s.lowerEach args)
      have hfits := Typing.fits_valType (s.callTyping recv method.name)
      rw [← hret] at hfits
      exact hfits
    | newObject cls pos =>
      have hcreate : s.lower (.newObject cls pos) none = s.lowerNewObject cls pos := rfl
      rw [hcreate, s.lowerNewObject_eq]
      split_ifs
      · exact Typing.fits_object _
      · exact Typing.fits_object _
    | newArray size pos => exact .inl rfl
    | array elems pos => exact fits_array

end Scope

end MiniJava

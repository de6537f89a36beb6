import MiniJava.Proofs.Lowering.Values

namespace MiniJava

open Tac Lower

def Expr.MakesApart : Expr → Prop
  | .newObject cls _ => cls.name ∉ builtinNames
  | _ => True

/-- The checker and generated code agree on the type of an expression, whatever is wanted of its
value and whatever is wrong inside it. -/
theorem Scope.typing_agrees {s : Scope} {e : Expr} (hn : s.symbols.NamesApart)
    (hmade : e.Everywhere Expr.MakesApart) {ty : Ty} (h : s.typing e = .known ty)
    (hint : Option ValType) (n : Numbering) : (s.lower e hint n).value.ty = .ofTy ty := by
  have hnew (cls : Ident) (pos : Position) (he : e.unparen = .newObject cls pos) :
      cls.name ∉ builtinNames := (he ▸ hmade.unparen).here
  rcases ty_lower_of_known (fun _ ↦ hn.not_mem) hnew h hint n with hty | ⟨name, hname, rfl, hty⟩
  · exact hty
  · rw [hty, ValType.ofTy_object hname]

/-- `[this.f(q), 2][0]` where a boolean is wanted and nothing is called `q`. -/
theorem Scope.typing_agrees_beside_error :
    let m : Signature := ⟨"f", .int, [⟨⟨"a", .int⟩, false⟩], [], true, false⟩
    let s : Scope := ⟨{ className := "A", superName := none, methods := [m] }, some m⟩
    let pos : Position := .synthetic
    let call : Expr := .call (.this pos) ⟨"f", pos⟩ [.ident ⟨"q", pos⟩] pos
    let e : Expr := .index (.array [call, .int 2 pos] pos) (.int 0 pos) pos
    s.symbols.NamesApart ∧ e.Everywhere Expr.MakesApart ∧ s.check e ≠ [] ∧
      s.typing e = .known .int ∧ (s.lower e (some .bool) {}).value.ty = .int := by
  intro m s pos call e
  have hn : s.symbols.NamesApart := by
    unfold Symbols.NamesApart
    decide +kernel
  have hmade : e.Everywhere Expr.MakesApart :=
    .intro _ trivial (forall_mem_two.2 ⟨.intro _ trivial (forall_mem_two.2 ⟨.intro _ trivial
      (forall_mem_two.2 ⟨.leaf trivial rfl, .leaf trivial rfl⟩), .leaf trivial rfl⟩),
      .leaf trivial rfl⟩)
  have hty : s.typing e = .known .int := by decide +kernel
  exact ⟨hn, hmade, by decide +kernel, hty, typing_agrees hn hmade hty (some .bool) {}⟩

end MiniJava

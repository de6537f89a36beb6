import MiniJava.Proofs.Checking.Accepted

namespace MiniJava.Scope

variable {s : Scope} {e : Expr}

/-- An expression without a type takes it from one that is reported for losing it. -/
theorem unknown_reported (h : s.typing e = .unknown) (hflat : ∀ x, s.Origin x e → s.Flat x) :
    ∃ x, s.Origin x e ∧ ∃ f ∈ s.check e, s.Blames x f := by
  obtain ⟨x, hx, huntyped⟩ := exists_origin h
  obtain ⟨f, hf, hblames⟩ := huntyped.reported (hflat x hx)
  exact ⟨x, hx, f, hx.check_subset hf, hblames⟩

/-- `[(q[0]).f()]` where nothing is called `q`. -/
theorem unknown_reported_in_literal :
    let pos : Position := .synthetic
    let s : Scope := ⟨{ className := "A", superName := none }, none⟩
    let q : Expr := .index (.ident ⟨"q", pos⟩) (.int 0 pos) pos
    let e : Expr := .array [.call (.paren q pos) ⟨"f", pos⟩ [] pos] pos
    s.typing e = .unknown ∧ (∀ x, s.Origin x e → s.Flat x) ∧
      ∃ x, s.Origin x e ∧ ∃ f ∈ s.check e, s.Blames x f := by
  intro pos s q e
  have hflat : e.Everywhere s.Flat := by
    have hq : q.Everywhere s.Flat :=
      .two trivial rfl (.leaf trivial rfl) (.leaf trivial rfl)
    have hcall : (Expr.call (.paren q pos) ⟨"f", pos⟩ [] pos).Everywhere s.Flat :=
      .one trivial rfl (.one trivial rfl hq)
    exact .one nofun rfl hcall
  have hunknown : s.typing e = .unknown := by decide +kernel
  have horigins : ∀ x, s.Origin x e → s.Flat x := fun x hx ↦ hx.of_everywhere hflat
  exact ⟨hunknown, horigins, unknown_reported hunknown horigins⟩

/-- An array literal of arrays has no type and no report. -/
theorem array_of_arrays_unreported :
    let pos : Position := .synthetic
    let s : Scope := ⟨{ className := "A", superName := none }, none⟩
    let e : Expr := .array [.array [.int 1 pos] pos] pos
    s.typing e = .unknown ∧ s.check e = [] := by decide +kernel

end MiniJava.Scope

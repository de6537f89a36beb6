import MiniJava.Proofs.Assembly.Levels

namespace MiniJava.Jasmin

variable {d d' : Depth} {lines part part' : List (Line Opcode)} {method : String}
  {os : List Outcome}

namespace Depth

theorem applyAll_append (h : d.applyAll part = (d', true)) :
    d.applyAll (part ++ part') = d'.applyAll part' := by
  induction part generalizing d with
  | nil =>
    obtain rfl := (Prod.mk.inj h).1
    rfl
  | cons x part ih =>
    simp only [List.cons_append, applyAll] at h ⊢
    cases hx : d.step? x with
    | none => simp [hx] at h
    | some d₁ => exact ih (by simpa [hx] using h)

theorem max_le_of_applyAll (h : d.applyAll lines = (d', true)) : d.max ≤ d'.max := by
  induction lines generalizing d with
  | nil =>
    obtain rfl := (Prod.mk.inj h).1
    exact Int.le_refl _
  | cons x lines ih =>
    simp only [applyAll] at h
    cases hx : d.step? x with
    | none => simp [hx] at h
    | some d₁ =>
      rw [hx] at h
      obtain ⟨-, rfl⟩ := step?_eq_some.1 hx
      exact Int.le_trans (Int.le_max_left _ _) (ih h)

/-- Where no line takes too much, what is recorded so far is never negative and at most the greatest
depth. -/
theorem bounds_of_applyAll (h : d.applyAll lines = (d', true)) (hd : 0 ≤ d.depth)
    (hmax : d.depth ≤ d.max) (k : Nat) :
    0 ≤ d.depth + recorded (lines.take k) ∧ d.depth + recorded (lines.take k) ≤ d'.max := by
  have hle := max_le_of_applyAll h
  induction lines generalizing d k with
  | nil =>
    rw [List.take_nil, recorded_nil]
    omega
  | cons x lines ih =>
    cases k with
    | zero =>
      rw [List.take_zero, recorded_nil]
      omega
    | succ k =>
      simp only [applyAll] at h
      cases hx : d.step? x with
      | none => simp [hx] at h
      | some d₁ =>
        rw [hx] at h
        obtain ⟨hpos, rfl⟩ := step?_eq_some.1 hx
        have hk := ih h hpos (Int.le_max_right _ _) k (max_le_of_applyAll h)
        rw [List.take_succ_cons, recorded_cons, ← Int.add_assoc]
        exact hk

end Depth

theorem track_eq_nil {last : Depth} (h : track method d false os = (last, [])) :
    (∀ o ∈ os, ∃ part, o = .ok part) ∧ d.applyAll (os.flatMap linesOf) = (last, true) := by
  induction os generalizing d with
  | nil =>
    obtain rfl := (Prod.mk.inj h).1
    exact ⟨nofun, rfl⟩
  | cons o os ih =>
    simp only [track, Prod.mk.injEq, List.append_eq_nil_iff] at h
    obtain ⟨hlast, ⟨hown, hunder⟩, hrest⟩ := h
    cases o with
    | error f => exact absurd hown nofun
    | ok part =>
      have hfits : (d.applyAll part).2 = true := by
        simpa [linesOf] using hunder
      have happly : d.applyAll part = ((d.applyAll part).1, true) := Prod.ext rfl hfits
      simp only [linesOf, hfits, Bool.not_true, Bool.or_false] at hlast hrest
      obtain ⟨hok, hall⟩ := ih (Prod.ext hlast hrest)
      refine ⟨List.forall_mem_cons.2 ⟨⟨part, rfl⟩, hok⟩, ?_⟩
      rw [List.flatMap_cons, linesOf, Depth.applyAll_append happly, hall]

end MiniJava.Jasmin

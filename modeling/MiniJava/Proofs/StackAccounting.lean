import Mathlib.Data.List.Induction
import Mathlib.Order.Bounds.Basic
import MiniJava.Proofs.FailureReports

namespace MiniJava.Jasmin

def depthAfter {α : Type} (n : Int) (lines : List (Line α)) : Int := n + (lines.map Line.delta).sum

def Fits {α : Type} (n : Int) (lines : List (Line α)) : Prop :=
  ∀ first, first <+: lines → 0 ≤ depthAfter n first

structure LongestFit {α : Type} (n : Int) (lines part : List (Line α)) : Prop where
  begins : part <+: lines
  fits : Fits n part
  longest {part' : List (Line α)} : part' <+: lines → Fits n part' → part' <+: part

/-- What a depth is asked for: one line, or all lines up to the first that takes too much. -/
inductive Request (α : Type) where
  | line (l : Line α)
  | all (lines : List (Line α))

def Request.lines {α : Type} : Request α → List (Line α)
  | .line l => [l]
  | .all lines => lines

inductive Accepted {α : Type} : List (Request α) → List (Line α) → Prop
  | nil : Accepted [] []
  | concat {rs : List (Request α)} {r : Request α} {lines part : List (Line α)} :
      Accepted rs lines → LongestFit (depthAfter 0 lines) r.lines part →
      Accepted (rs ++ [r]) (lines ++ part)

namespace Depth

def answer {α : Type} (d : Depth) : Request α → Depth × Bool
  | .line l =>
    match d.step? l with
    | some d' => (d', true)
    | none => (d, false)
  | .all lines => d.applyAll lines

def answerAll {α : Type} (d : Depth) (rs : List (Request α)) : Depth :=
  rs.foldl (fun d r ↦ (d.answer r).1) d

/-- A depth is what the lines so far add up to. They have fitted, and the greatest depth on the way
is known. -/
structure AccountsFor {α : Type} (d : Depth) (lines : List (Line α)) : Prop where
  depth : d.depth = depthAfter 0 lines
  fits : Fits 0 lines
  max : IsGreatest {n | ∃ first, first <+: lines ∧ n = depthAfter 0 first} d.max

structure Meets {α : Type} (d : Depth) (lines : List (Line α)) (r : Request α)
    (part : List (Line α)) : Prop where
  longest : LongestFit d.depth r.lines part
  accounts : (d.answer r).1.AccountsFor (lines ++ part)
  refused : (d.answer r).2 = false ↔ part ≠ r.lines
  max_le : d.max ≤ (d.answer r).1.max
  unchanged (l : Line α) : r = .line l → (d.answer r).2 = false → (d.answer r).1 = d

end Depth

variable {α : Type} {n : Int} {d d' : Depth} {l : Line α} {lines part : List (Line α)}

@[simp] theorem depthAfter_nil : depthAfter n ([] : List (Line α)) = n := Int.add_zero n

theorem depthAfter_cons (n : Int) (l : Line α) (lines : List (Line α)) :
    depthAfter n (l :: lines) = depthAfter (n + l.delta) lines := by
  rw [depthAfter, depthAfter, List.map_cons, List.sum_cons, Int.add_assoc]

theorem depthAfter_concat (n : Int) (lines : List (Line α)) (l : Line α) :
    depthAfter n (lines ++ [l]) = depthAfter n lines + l.delta := by
  simp [depthAfter, Int.add_assoc]

theorem fits_nil (h : 0 ≤ n) : Fits n ([] : List (Line α)) := by
  intro first hfirst
  rw [List.prefix_nil.1 hfirst, depthAfter_nil]
  exact h

theorem fits_cons : Fits n (l :: lines) ↔ 0 ≤ n ∧ Fits (n + l.delta) lines := by
  constructor
  · intro h
    refine ⟨by simpa using h [] List.nil_prefix, fun first hfirst ↦ ?_⟩
    rw [← depthAfter_cons]
    exact h (l :: first) (List.cons_prefix_cons.2 ⟨rfl, hfirst⟩)
  · rintro ⟨hn, h⟩ first hfirst
    obtain rfl | ⟨rest, rfl, hrest⟩ := List.prefix_cons_iff.1 hfirst
    · simpa using hn
    · rw [depthAfter_cons]
      exact h rest hrest

namespace LongestFit

theorem nil (hn : 0 ≤ n) : LongestFit n ([] : List (Line α)) [] :=
  ⟨List.prefix_rfl, fits_nil hn, fun h _ ↦ h⟩

/-- Where the first line takes too much, nothing fits. -/
theorem none (hn : 0 ≤ n) (h : n + l.delta < 0) : LongestFit n (l :: lines) [] where
  begins := List.nil_prefix
  fits := fits_nil hn
  longest {part'} hpart hfits := by
    obtain rfl | ⟨rest, rfl, -⟩ := List.prefix_cons_iff.1 hpart
    · exact List.prefix_rfl
    · have hpos : 0 ≤ n + l.delta := by
        simpa using (fits_cons.1 hfits).2 [] List.nil_prefix
      omega

theorem cons (hn : 0 ≤ n) (h : LongestFit (n + l.delta) lines part) :
    LongestFit n (l :: lines) (l :: part) where
  begins := List.cons_prefix_cons.2 ⟨rfl, h.begins⟩
  fits := fits_cons.2 ⟨hn, h.fits⟩
  longest {part'} hpart hfits := by
    obtain rfl | ⟨rest, rfl, hrest⟩ := List.prefix_cons_iff.1 hpart
    · exact List.nil_prefix
    · exact List.cons_prefix_cons.2 ⟨rfl, h.longest hrest (fits_cons.1 hfits).2⟩

end LongestFit

namespace Depth

theorem accountsFor_start : AccountsFor {} ([] : List (Line α)) where
  depth := rfl
  fits := fits_nil (Int.le_refl 0)
  max := by
    refine ⟨⟨[], List.prefix_rfl, rfl⟩, ?_⟩
    rintro _ ⟨first, hfirst, rfl⟩
    rw [List.prefix_nil.1 hfirst]
    exact Int.le_refl 0

/-- One line is the first of all that are asked for. -/
theorem answer_eq_applyAll (d : Depth) (r : Request α) : d.answer r = d.applyAll r.lines := by
  cases r with
  | all lines => rfl
  | line l => cases h : d.step? l <;> simp [answer, Request.lines, applyAll, h]

theorem answerAll_concat (d : Depth) (rs : List (Request α)) (r : Request α) :
    d.answerAll (rs ++ [r]) = ((d.answerAll rs).answer r).1 := by
  simp [answerAll]

namespace AccountsFor

theorem nonneg (h : d.AccountsFor lines) : 0 ≤ d.depth := by
  rw [h.depth]
  exact h.fits lines List.prefix_rfl

theorem le_max (h : d.AccountsFor lines) : d.depth ≤ d.max :=
  h.max.2 ⟨lines, List.prefix_rfl, h.depth⟩

theorem step (h : d.AccountsFor lines) (hstep : d.step? l = some d') :
    d'.AccountsFor (lines ++ [l]) := by
  obtain ⟨hpos, rfl⟩ := step?_eq_some.1 hstep
  have hdepth : d.depth + l.delta = depthAfter 0 (lines ++ [l]) := by
    rw [depthAfter_concat, h.depth]
  refine ⟨hdepth, fun first hfirst ↦ ?_, ?_⟩
  · rcases List.prefix_concat_iff.1 hfirst with rfl | hfirst
    · rwa [← hdepth]
    · exact h.fits first hfirst
  · have hreached : {n | ∃ first, first <+: lines ++ [l] ∧ n = depthAfter 0 first} =
        insert (d.depth + l.delta) {n | ∃ first, first <+: lines ∧ n = depthAfter 0 first} := by
      ext n
      simp only [List.prefix_concat_iff, or_and_right, exists_or, exists_eq_left, hdepth]
      rfl
    rw [hreached, Int.max_comm]
    exact h.max.insert _

/-- Of lines in a row, those before the first that takes too much are accounted for. -/
theorem applyAll (h : d.AccountsFor lines) (more : List (Line α)) :
    ∃ part, LongestFit d.depth more part ∧ (d.applyAll more).1.AccountsFor (lines ++ part) ∧
      ((d.applyAll more).2 = true ↔ part = more) ∧ d.max ≤ (d.applyAll more).1.max := by
  induction more generalizing d lines with
  | nil =>
    refine ⟨[], .nil h.nonneg, ?_, iff_of_true rfl rfl, le_rfl⟩
    rwa [List.append_nil]
  | cons l more ih =>
    simp only [Depth.applyAll]
    cases hstep : d.step? l with
    | none =>
      have hneg : d.depth + l.delta < 0 := step?_eq_none.1 hstep
      refine ⟨[], .none h.nonneg hneg, ?_, by simp, le_rfl⟩
      rwa [List.append_nil]
    | some d' =>
      obtain ⟨part, hpart, haccounts, hall, hmax⟩ := ih (h.step hstep)
      obtain ⟨-, rfl⟩ := step?_eq_some.1 hstep
      refine ⟨l :: part, hpart.cons h.nonneg, ?_, ?_, ?_⟩
      · rwa [List.append_cons]
      · rw [hall, List.cons.injEq, and_iff_right rfl]
      · exact le_trans (Int.le_max_left ..) hmax

theorem meets (h : d.AccountsFor lines) (r : Request α) : ∃ part, d.Meets lines r part := by
  obtain ⟨part, hlongest, haccounts, hall, hmax⟩ := h.applyAll r.lines
  rw [← answer_eq_applyAll] at haccounts hall hmax
  refine ⟨part, hlongest, haccounts, ?_, hmax, ?_⟩
  · rw [← Bool.not_eq_true, hall]
  · rintro l rfl hrefused
    simp only [answer] at hrefused ⊢
    cases hstep : d.step? l with
    | none => rfl
    | some d' => simp [hstep] at hrefused

end AccountsFor

theorem exists_accepted (rs : List (Request α)) :
    ∃ lines, Accepted rs lines ∧ (answerAll {} rs).AccountsFor lines := by
  induction rs using List.reverseRecOn with
  | nil => exact ⟨[], .nil, accountsFor_start⟩
  | append_singleton rs r ih =>
    obtain ⟨lines, hlines, haccounts⟩ := ih
    obtain ⟨part, hpart⟩ := haccounts.meets r
    refine ⟨lines ++ part, hlines.concat (haccounts.depth ▸ hpart.longest), ?_⟩
    rw [answerAll_concat]
    exact hpart.accounts

end Depth

/-- The depth follows the instructions of a method as one request for each of them. -/
theorem track_eq_answerAll (method : String) (d : Depth) (found : Bool) (os : List Outcome) :
    (track method d found os).1 = d.answerAll (os.map fun o ↦ .all (linesOf o)) := by
  induction os generalizing d found with
  | nil => rfl
  | cons o os ih =>
    rw [track_cons]
    exact ih _ _

/-- Whatever is asked of it, a depth accounts for the lines that it has accepted, and for no part of
what it refuses. The limit of a method's stack is the greatest depth that is reached so. -/
theorem depth_accounts :
    (∀ (α : Type) (rs : List (Request α)), ∃ lines, Accepted rs lines ∧
      (Depth.answerAll {} rs).AccountsFor lines ∧ 0 ≤ (Depth.answerAll {} rs).depth ∧
      (Depth.answerAll {} rs).depth ≤ (Depth.answerAll {} rs).max ∧
      ∀ r, ∃ part, (Depth.answerAll {} rs).Meets lines r part ∧
        Accepted (rs ++ [r]) (lines ++ part)) ∧
    ∀ (c : Tac.Class) (m : Tac.Method) (n : Nat), (body c n m).maxDepth =
      (Depth.answerAll {} ((outcomes c m n m.code).1.map fun o ↦ .all (linesOf o))).max := by
  refine ⟨fun α rs ↦ ?_, fun c m n ↦ congrArg Depth.max (track_eq_answerAll ..)⟩
  obtain ⟨lines, hlines, haccounts⟩ := Depth.exists_accepted rs
  refine ⟨lines, hlines, haccounts, haccounts.nonneg, haccounts.le_max, fun r ↦ ?_⟩
  obtain ⟨part, hpart⟩ := haccounts.meets r
  exact ⟨part, hpart, hlines.concat (haccounts.depth ▸ hpart.longest)⟩

-- A depth that has refused a line is used on.
example : Depth.answerAll {}
    [.all [.op () 2, .op () (-3), .op () 5], .line (.op () (-1))] = ⟨1, 2⟩ := by decide

end MiniJava.Jasmin

import MiniJava.Proofs.Assembly.Neutral
import MiniJava.Proofs.Assembly.Tracking
import MiniJava.Proofs.Lowering.Targets

namespace MiniJava.Jasmin

open Tac Lower

variable {Γ Γ' : String → Option Nat} {c : Tac.Class} {m : Tac.Method} {n k : Nat}
  {part : List (Line Opcode)} {i : Instr} {code : List Instr} {l : String}

theorem trueLabel_inj : trueLabel n = trueLabel k ↔ n = k := by
  rw [trueLabel_eq, trueLabel_eq, numbered_inj (by decide) (by decide)]
  exact and_iff_right rfl

theorem endLabel_inj : endLabel n = endLabel k ↔ n = k := by
  rw [endLabel_eq, endLabel_eq, numbered_inj (by decide) (by decide)]
  exact and_iff_right rfl

theorem trueLabel_ne_endLabel : trueLabel n ≠ endLabel k := by
  rw [trueLabel_eq, endLabel_eq, Ne, numbered_inj (by decide) (by decide)]
  exact fun h ↦ absurd h.1 (by decide)

def Apart (code : List Instr) : Prop :=
  ∀ l ∈ labelNames code, ∀ k, l ≠ trueLabel k ∧ l ≠ endLabel k

/-- The depth at each label of the code, when comparisons are numbered from `n` on. -/
def labelDepth : Nat → List Instr → String → Option Nat
  | _, [], _ => none
  | n, i :: is, l =>
    if i.label? = some l then some 0
    else if i.comparisons ≠ 0 ∧ l = trueLabel n then some i.base
    else if i.comparisons ≠ 0 ∧ l = endLabel n then some (i.base + 1)
    else labelDepth (n + i.comparisons) is l

def ComparesAll (Γ : String → Option Nat) : Nat → List Instr → Prop
  | _, [] => True
  | n, i :: is => Compares Γ n i ∧ ComparesAll Γ (n + i.comparisons) is

theorem ComparesAll.congr (h : ComparesAll Γ n code) (heq : ∀ k, n ≤ k →
    Γ' (trueLabel k) = Γ (trueLabel k) ∧ Γ' (endLabel k) = Γ (endLabel k)) :
    ComparesAll Γ' n code := by
  induction code generalizing n with
  | nil => trivial
  | cons i is ih =>
    refine ⟨fun hi ↦ ?_, ih h.2 fun k hk ↦ heq k (by omega)⟩
    obtain ⟨htrue, hend⟩ := heq n (Nat.le_refl n)
    rw [htrue, hend]
    exact h.1 hi

theorem comparesAll_labelDepth (h : Apart code) : ComparesAll (labelDepth n code) n code := by
  induction code generalizing n with
  | nil => trivial
  | cons i is ih =>
    have his : Apart is := fun l hl ↦ h l (by simp [hl])
    have hlabel (k : Nat) : i.label? ≠ some (trueLabel k) ∧ i.label? ≠ some (endLabel k) := by
      refine ⟨fun hl ↦ (h (trueLabel k) ?_ k).1 rfl, fun hl ↦ (h (endLabel k) ?_ k).2 rfl⟩
      all_goals simp [hl]
    refine ⟨fun hi ↦ ?_, (ih his).congr fun k hk ↦ ?_⟩
    · have hne : endLabel n ≠ trueLabel n := trueLabel_ne_endLabel.symm
      simp [labelDepth, hlabel n, hi, hne]
    · have hnk : i.comparisons ≠ 0 → k ≠ n := by omega
      simp only [labelDepth, hlabel k, if_false, trueLabel_inj, endLabel_inj,
        trueLabel_ne_endLabel, trueLabel_ne_endLabel.symm, and_false]
      constructor
      all_goals exact if_neg fun hi ↦ hnk hi.1 hi.2

theorem labelDepth_of_mem (h : Apart code) (hl : l ∈ labelNames code) :
    labelDepth n code l = some 0 := by
  induction code generalizing n with
  | nil => exact absurd hl nofun
  | cons i is ih =>
    obtain ⟨htrue, hend⟩ : (∀ k, l ≠ trueLabel k) ∧ ∀ k, l ≠ endLabel k :=
      ⟨fun k ↦ (h l hl k).1, fun k ↦ (h l hl k).2⟩
    by_cases hi : i.label? = some l
    · simp [labelDepth, hi]
    · have hl : l ∈ labelNames is := by simpa [hi] using hl
      simp only [labelDepth, hi, htrue, hend, and_false, if_false]
      exact ih (fun l hl ↦ h l (by simp [hl])) hl

theorem next_instr (h : (instr c m n i).1 = .ok part) :
    (instr c m n i).2 = n + i.comparisons := by
  cases i with
  | assign dest t r =>
    cases dest with
    | elem array index ty =>
      obtain ⟨place, -, heq⟩ := instr_elem h
      rw [heq]
      rfl
    | lit | var | param | this | cls => rfl
  | branch cond l => cases cond <;> rfl
  | «return» t x => cases x <;> rfl
  | putField | call | goto | label | invalid => rfl

theorem label_mem_of_mem_labels (h : l ∈ part.filterMap Line.label?) : .label l ∈ part := by
  obtain ⟨x, hx, hl⟩ := List.mem_filterMap.1 h
  cases x with
  | label l' => exact Option.some.inj hl ▸ hx
  | op | comment => exact absurd hl nofun

theorem mem_labels_instr (h : (instr c m n i).1 = .ok part)
    (hl : i.label? = some l ∨ i.comparisons ≠ 0 ∧ (l = trueLabel n ∨ l = endLabel n)) :
    .label l ∈ part := by
  apply label_mem_of_mem_labels
  rw [labels_instr h, next_instr h]
  rcases hl with hl | ⟨hi, hl⟩
  · simp [hl]
  · rw [if_neg (by omega)]
    exact List.mem_append_right _ (by simpa using hl)

theorem outcomes_cons (c : Tac.Class) (m : Tac.Method) (n : Nat) (i : Instr) (is : List Instr) :
    (outcomes c m n (i :: is)).1 =
      (instr c m n i).1 :: (outcomes c m (instr c m n i).2 is).1 := rfl

/-- What holds of each instruction's outcome, however it is numbered, holds of all outcomes. -/
theorem forall_outcomes {P : Outcome → Prop} (h : ∀ i ∈ code, ∀ k, P (instr c m k i).1) :
    ∀ o ∈ (outcomes c m n code).1, P o := by
  induction code generalizing n with
  | nil => nofun
  | cons i is ih =>
    obtain ⟨hi, his⟩ := List.forall_mem_cons.1 h
    rw [outcomes_cons]
    exact List.forall_mem_cons.2 ⟨hi n, ih his⟩

theorem mem_of_labelDepth (hok : ∀ o ∈ (outcomes c m n code).1, ∃ part, o = .ok part) {d : Nat}
    (h : labelDepth n code l = some d) :
    .label l ∈ (outcomes c m n code).1.flatMap linesOf := by
  induction code generalizing n with
  | nil => exact absurd h nofun
  | cons i is ih =>
    rw [outcomes_cons] at hok ⊢
    obtain ⟨⟨part, hpart⟩, hok⟩ := List.forall_mem_cons.1 hok
    rw [next_instr hpart] at hok ⊢
    rw [List.flatMap_cons, hpart, List.mem_append]
    unfold labelDepth at h
    split_ifs at h with hl ht he
    · exact .inl (mem_labels_instr hpart (.inl hl))
    · exact .inl (mem_labels_instr hpart (.inr ⟨ht.1, .inl ht.2⟩))
    · exact .inl (mem_labels_instr hpart (.inr ⟨he.1, .inr he.2⟩))
    · exact .inr (ih hok h)

/-- If what is recorded is never negative, each instruction leaves the depth at 0. -/
theorem balanced_outcomes (hok : ∀ o ∈ (outcomes c m n code).1, ∃ part, o = .ok part)
    (hs : ∀ i ∈ code, i.Sound c) (hn : ∀ i ∈ code, ∀ k, i.call? = some k → k.Countable)
    (hc : ComparesAll Γ n code) (hj : ∀ i ∈ code, Joins Γ i)
    (hpos : ∀ k, 0 ≤ recorded (((outcomes c m n code).1.flatMap linesOf).take k)) :
    Balanced Γ 0 ((outcomes c m n code).1.flatMap linesOf) 0 := by
  induction code generalizing n with
  | nil => exact .nil
  | cons i is ih =>
    rw [outcomes_cons] at hok hpos ⊢
    obtain ⟨⟨part, hpart⟩, hok⟩ := List.forall_mem_cons.1 hok
    obtain ⟨hi, hs⟩ := List.forall_mem_cons.1 hs
    obtain ⟨hni, hn⟩ := List.forall_mem_cons.1 hn
    obtain ⟨hji, hj⟩ := List.forall_mem_cons.1 hj
    rw [next_instr hpart] at hok hpos ⊢
    rw [List.flatMap_cons, hpart, linesOf] at hpos ⊢
    -- The lines up to the end of this instruction record nothing below zero, so neither does it.
    have hown : Balanced Γ 0 part 0 := by
      refine (neutral_instr hpart hi hni hc.1 hji).2 ?_
      simpa using hpos part.length
    refine hown.append (ih hok hs hn hc.2 hj fun k ↦ ?_)
    have hk := hpos (part.length + k)
    rw [List.take_length_add_append, recorded_append, hown.recorded_eq] at hk
    simpa using hk

theorem recorded_take_return (k : Nat) : recorded ([returnLine .void].take k) = 0 := by
  cases k with
  | zero => rfl
  | succ k =>
    rw [List.take_succ_cons, List.take_nil]
    rfl

/-- The body of a method without findings is safe, if its instructions are sound and its jumps go to
labels of its own. -/
theorem body_stackSafe (hf : (body c n m).findings = []) (hs : ∀ i ∈ m.code, i.Sound c)
    (hn : ∀ i ∈ m.code, ∀ k, i.call? = some k → k.Countable) (ha : Apart m.code)
    (hl : targetNames m.code ⊆ labelNames m.code) : (body c n m).StackSafe := by
  obtain ⟨hok, happly⟩ := track_eq_nil (Prod.ext (y := ((track m.name {} false
    (outcomes c m n m.code).1).1, [])) rfl hf)
  have hbounds := Depth.bounds_of_applyAll happly (Int.le_refl 0) (Int.le_refl 0)
  simp only [Int.zero_add] at hbounds
  have hjoins : ∀ i ∈ m.code, Joins (labelDepth n m.code) i := by
    intro i hi l hil
    refine labelDepth_of_mem ha ?_
    rcases hil with hil | hil
    · exact List.mem_filterMap.2 ⟨i, hi, hil⟩
    · exact hl (List.mem_filterMap.2 ⟨i, hi, hil⟩)
  -- Each label of the source stands where the stack is empty, those of comparisons where their
  -- instruction has put what it needs; so one depth for each label suits all jumps to it.
  have hbalanced := balanced_outcomes hok hs hn (comparesAll_labelDepth ha) hjoins
    fun k ↦ (hbounds k).1
  by_cases hend : m.isConstructor && !m.endsWithReturn
  · have hlines : (body c n m).lines =
        (outcomes c m n m.code).1.flatMap linesOf ++ [returnLine .void] := if_pos hend
    have hreturn : Balanced (labelDepth n m.code) 0 [returnLine .void] 0 :=
      .op rfl rfl rfl (Nat.zero_le _)
    refine .of_levels (e := 0) (u := 0) (hlines ▸ hbalanced.append hreturn) (fun k ↦ ?_)
      fun l d hd ↦ ?_
    · rw [hlines, List.take_append, recorded_append, recorded_take_return, Int.add_zero]
      exact (hbounds k).2
    · rw [hlines]
      exact List.mem_append_left _ (mem_of_labelDepth hok hd)
  · have hlines : (body c n m).lines = (outcomes c m n m.code).1.flatMap linesOf := if_neg hend
    refine .of_levels (e := 0) (u := 0) (hlines ▸ hbalanced) (fun k ↦ ?_) fun l d hd ↦ ?_
    · rw [hlines]
      exact (hbounds k).2
    · rw [hlines]
      exact mem_of_labelDepth hok hd

end MiniJava.Jasmin

import Mathlib.Data.List.Perm.Basic
import MiniJava.Lower.Basic

namespace MiniJava.Lower

/-- A stem that does not end in a digit, so that a number behind it can be told from it. -/
def Plain (stem : String) : Prop := stem.toList.getLast?.all (!·.isDigit)

instance (stem : String) : Decidable (Plain stem) := inferInstanceAs (Decidable (_ = true))

theorem toList_numbered (stem : String) (n : Nat) :
    (numbered stem n).toList = stem.toList ++ Nat.toDigits 10 n := by
  simp [numbered]

theorem isDigit_of_mem_digits {n : Nat} {c : Char} (h : c ∈ Nat.toDigits 10 n) : c.isDigit :=
  Nat.isDigit_of_mem_toDigits (by decide) (by decide) h

/-- The stem is what is left of a numbered name without the digits at its end. -/
theorem dropWhile_reverse_numbered {stem : String} (h : Plain stem) (n : Nat) :
    (numbered stem n).toList.reverse.dropWhile Char.isDigit = stem.toList.reverse := by
  rw [toList_numbered, List.reverse_append, List.dropWhile_append_of_pos]
  · cases hr : stem.toList.reverse with
    | nil => rfl
    | cons c cs =>
      have hc : stem.toList.getLast? = some c := by
        rw [← List.head?_reverse, hr, List.head?_cons]
      have hd : c.isDigit = false := by simpa [Plain, hc] using h
      rw [List.dropWhile_cons_of_neg (by simp [hd])]
  · intro c hc
    exact isDigit_of_mem_digits (List.mem_reverse.1 hc)

theorem digits_injective {j k : Nat} (h : Nat.toDigits 10 j = Nat.toDigits 10 k) : j = k := by
  rw [← Nat.ofDigitChars_ten_toDigits (n := j), h, Nat.ofDigitChars_ten_toDigits]

theorem numbered_inj {stem stem' : String} (h : Plain stem) (h' : Plain stem') {j k : Nat} :
    numbered stem j = numbered stem' k ↔ stem = stem' ∧ j = k := by
  constructor
  · intro he
    have hs : stem.toList.reverse = stem'.toList.reverse := by
      rw [← dropWhile_reverse_numbered h j, he, dropWhile_reverse_numbered h' k]
    have hstem : stem = stem' := String.toList_inj.1 (List.reverse_inj.1 hs)
    subst hstem
    have hd := congrArg String.toList he
    rw [toList_numbered, toList_numbered, List.append_cancel_left_eq] at hd
    exact ⟨rfl, digits_injective hd⟩
  · rintro ⟨rfl, rfl⟩
    rfl

theorem exists_free {stem : String} (h : Plain stem) (taken : List String) (n : Nat) :
    ∃ k ∈ List.range' n (taken.length + 1), numbered stem k ∉ taken := by
  by_contra hall
  have hsub : (List.range' n (taken.length + 1)).map (numbered stem) ⊆ taken := by
    intro x hx
    obtain ⟨k, hk, rfl⟩ := List.mem_map.1 hx
    by_contra hn
    exact hall ⟨k, hk, hn⟩
  have hnodup : ((List.range' n (taken.length + 1)).map (numbered stem)).Nodup := by
    rw [List.nodup_iff_pairwise_ne, List.pairwise_map]
    have hrange : (List.range' n (taken.length + 1)).Nodup := List.nodup_range'
    exact hrange.imp fun hne he ↦ hne ((numbered_inj h h).1 he).2
  have hlen := (List.subperm_of_subset hnodup hsub).length_le
  rw [List.length_map, List.length_range'] at hlen
  omega

theorem le_freshNumber (taken : List String) (stem : String) (n : Nat) :
    n ≤ freshNumber taken stem n := by
  unfold freshNumber
  cases hf : (List.range' n (taken.length + 1)).find? fun k ↦ !taken.contains (numbered stem k) with
  | none => exact Nat.le_refl n
  | some j => exact (List.mem_range'_1.1 (List.mem_of_find?_eq_some hf)).1

/-- A search for a free name that starts with the first number and ends with the second. Numbers
that make a taken name are skipped. -/
inductive Finds (taken : List String) (stem : String) : Nat → Nat → Prop
  | free {n : Nat} : numbered stem n ∉ taken → Finds taken stem n n
  | skip {n k : Nat} : numbered stem n ∈ taken → Finds taken stem (n + 1) k → Finds taken stem n k

variable {taken : List String} {stem : String} {n k : Nat}

namespace Finds

theorem le (h : Finds taken stem n k) : n ≤ k := by
  induction h with
  | free => exact Nat.le_refl _
  | skip _ _ ih => exact Nat.le_of_succ_le ih

theorem not_mem (h : Finds taken stem n k) : numbered stem k ∉ taken := by
  induction h with
  | free hfree => exact hfree
  | skip _ _ ih => exact ih

theorem of_least (hfree : numbered stem (n + k) ∉ taken)
    (htaken : ∀ j < k, numbered stem (n + j) ∈ taken) : Finds taken stem n (n + k) := by
  induction k generalizing n with
  | zero => exact .free hfree
  | succ k ih =>
    have hnext : n + (k + 1) = n + 1 + k := by omega
    rw [hnext] at hfree ⊢
    refine .skip (htaken 0 k.succ_pos) (ih hfree fun j hj ↦ ?_)
    rw [Nat.add_assoc, Nat.add_comm 1]
    exact htaken (j + 1) (Nat.succ_lt_succ hj)

end Finds

/-- The search ends, and with the number that the generator takes, since not all numbers make a
taken name. -/
theorem finds_freshNumber (h : Plain stem) (taken : List String) (n : Nat) :
    Finds taken stem n (freshNumber taken stem n) := by
  obtain ⟨j, hj, hfree⟩ := exists_free h taken n
  unfold freshNumber
  cases hf : (List.range' n (taken.length + 1)).find? fun k ↦ !taken.contains (numbered stem k) with
  | none =>
    rw [List.find?_eq_none] at hf
    exact absurd (by simpa using hfree) (hf j hj)
  | some k =>
    obtain ⟨hk, hmem, hbefore⟩ := List.find?_range'_eq_some.1 hf
    obtain ⟨d, rfl⟩ := Nat.exists_eq_add_of_le (List.mem_range'_1.1 hmem).1
    refine .of_least (by simpa using hk) fun i hi ↦ ?_
    simpa using hbefore (n + i) (Nat.le_add_right n i) (Nat.add_lt_add_left hi n)

theorem freshNumber_free (h : Plain stem) (taken : List String) (n : Nat) :
    numbered stem (freshNumber taken stem n) ∉ taken := (finds_freshNumber h taken n).not_mem

end MiniJava.Lower

import Mathlib.Data.List.Nodup
import MiniJava.Lower.Program
import MiniJava.Proofs.Lowering.Closure
import MiniJava.Proofs.Lowering.Numbers
import MiniJava.Proofs.Semantics.TacRun

namespace MiniJava.Lower

open Tac

def labelStems : List String :=
  ["true_", "end_", "if", "else", "endif", "whilebody_", "endwhile_"]

theorem plain_of_mem_labelStems {stem : String} (h : stem ∈ labelStems) : Plain stem := by
  have hall : ∀ s ∈ labelStems, Plain s := by decide
  exact hall stem h

structure Between (a b : Nat) (names : List String) : Prop where
  nodup : names.Nodup
  numbered : ∀ l ∈ names, ∃ stem ∈ labelStems, ∃ k, a ≤ k ∧ k < b ∧ l = numbered stem k

namespace Between

variable {a b c : Nat} {names names' : List String}

theorem nil : Between a b [] := ⟨List.nodup_nil, nofun⟩

theorem append (h : Between a b names) (h' : Between b c names') (hab : a ≤ b) (hbc : b ≤ c) :
    Between a c (names ++ names') where
  nodup := by
    refine List.nodup_append.2 ⟨h.nodup, h'.nodup, ?_⟩
    rintro l hl _ hl' rfl
    obtain ⟨stem, hs, j, _, hj, rfl⟩ := h.numbered l hl
    obtain ⟨stem', hs', k, hk, _, he⟩ := h'.numbered _ hl'
    have hjk := ((numbered_inj (plain_of_mem_labelStems hs) (plain_of_mem_labelStems hs')).1 he).2
    omega
  numbered l hl := by
    rcases List.mem_append.1 hl with hl | hl
    · obtain ⟨stem, hs, k, _, _, he⟩ := h.numbered l hl
      exact ⟨stem, hs, k, by omega, by omega, he⟩
    · obtain ⟨stem, hs, k, _, _, he⟩ := h'.numbered l hl
      exact ⟨stem, hs, k, by omega, by omega, he⟩

theorem perm (h : Between a b names) (hp : names.Perm names') : Between a b names' :=
  ⟨hp.nodup_iff.1 h.nodup, fun l hl ↦ h.numbered l (hp.mem_iff.2 hl)⟩

theorem single (stems : List String) (hs : stems ⊆ labelStems) (hn : stems.Nodup) (k : Nat) :
    Between k (k + 1) (stems.map (Lower.numbered · k)) where
  nodup := by
    refine List.Nodup.map_on (fun x hx y hy he ↦ ?_) hn
    exact ((numbered_inj (plain_of_mem_labelStems (hs hx))
      (plain_of_mem_labelStems (hs hy))).1 he).1
  numbered l hl := by
    obtain ⟨stem, hm, rfl⟩ := List.mem_map.1 hl
    exact ⟨stem, hs hm, k, Nat.le_refl k, Nat.lt_succ_self k, rfl⟩

end Between

variable {α : Type}

/-- Every label of some code has a number that was new when the code was made. -/
def Labelled (x : Lower α) : Prop := ∀ n,
  n.label ≤ (x n).next.label ∧ Between n.label (x n).next.label (labelNames (x n).code)

theorem Labelled.of_unlabelled {x : Lower α} (hnext : ∀ n, (x n).next.label = n.label)
    (hcode : ∀ n, labelNames (x n).code = []) : Labelled x := by
  intro n
  rw [hnext, hcode]
  exact ⟨Nat.le_refl _, .nil⟩

theorem Labelled.bind {β : Type} {x : Lower α} {f : α → Lower β} (hx : Labelled x)
    (hf : ∀ n, Labelled (f (x n).value)) : Labelled (x >>= f) := by
  intro n
  obtain ⟨hle, hb⟩ := hx n
  obtain ⟨hle', hb'⟩ := hf n (x n).next
  simp only [next_bind, code_bind, labelNames_append]
  exact ⟨Nat.le_trans hle hle', hb.append hb' hle hle'⟩

theorem Labelled.lowerAnd (s : Scope) {left right : Lower Operand} (hl : Labelled left)
    (hr : Labelled right) : Labelled (s.lowerAnd left right) := by
  intro n
  rw [s.lowerAnd_apply]
  obtain ⟨hle, hb⟩ := hl n
  have hr' := hr (s.freshTemp .bool { (left n).next with label := (left n).next.label + 1 }).next
  obtain ⟨hle', hb'⟩ := hr'
  have hown := Between.single ["true_", "end_"] (by decide) (by decide) (left n).next.label
  refine ⟨Nat.le_trans hle (Nat.le_of_succ_le hle'), ?_⟩
  refine (hb.append (hown.append hb' (Nat.le_succ _) hle') hle (Nat.le_of_succ_le hle')).perm ?_
  simp only [labelNames_append, labelNames_cons, labelNames_nil, Instr.label?,
    Option.toList_none, Option.toList_some, List.nil_append, List.map_cons, List.map_nil,
    List.cons_append, List.append_nil]
  exact (List.Perm.cons _ (List.perm_append_singleton _ _).symm).append_left _

theorem Labelled.lowerIf (s : Scope) (cond : Expr) {body other : Lower Unit}
    (hc : Labelled (s.lowerCond cond)) (hb : Labelled body) (ho : Labelled other) :
    Labelled (s.lowerIf cond body other) := by
  intro n
  rw [s.lowerIf_apply]
  obtain ⟨hle₁, h₁⟩ := hc { n with label := n.label + 1 }
  obtain ⟨hle₂, h₂⟩ := hb (s.lowerCond cond { n with label := n.label + 1 }).next
  obtain ⟨hle₃, h₃⟩ := ho (body (s.lowerCond cond { n with label := n.label + 1 }).next).next
  have hown := Between.single ["if", "else", "endif"] (by decide) (by decide) n.label
  have hle := Nat.le_trans hle₁ (Nat.le_trans hle₂ hle₃)
  refine ⟨Nat.le_of_succ_le hle, ?_⟩
  have hin := h₁.append (h₂.append h₃ hle₂ hle₃) hle₁ (Nat.le_trans hle₂ hle₃)
  refine (hown.append hin (Nat.le_succ _) hle).perm ?_
  simp only [labelNames_append, labelNames_cons, labelNames_nil, Instr.label?,
    Option.toList_none, Option.toList_some, List.nil_append, List.map_cons, List.map_nil,
    List.cons_append, List.append_nil]
  grind

theorem Labelled.lowerWhile (s : Scope) (cond : Expr) {body : Lower Unit}
    (hc : Labelled (s.lowerCond cond)) (hb : Labelled body) :
    Labelled (s.lowerWhile cond body) := by
  intro n
  rw [s.lowerWhile_apply]
  obtain ⟨hle₁, h₁⟩ := hc { n with label := n.label + 1 }
  obtain ⟨hle₂, h₂⟩ := hb (s.lowerCond cond { n with label := n.label + 1 }).next
  obtain ⟨hle₃, h₃⟩ := hc (body (s.lowerCond cond { n with label := n.label + 1 }).next).next
  have hown := Between.single ["whilebody_", "endwhile_"] (by decide) (by decide) n.label
  have hle := Nat.le_trans hle₁ (Nat.le_trans hle₂ hle₃)
  refine ⟨Nat.le_of_succ_le hle, ?_⟩
  have hin := h₁.append (h₂.append h₃ hle₂ hle₃) hle₁ (Nat.le_trans hle₂ hle₃)
  refine (hown.append hin (Nat.le_succ _) hle).perm ?_
  simp only [labelNames_append, labelNames_cons, labelNames_nil, Instr.label?,
    Option.toList_none, Option.toList_some, List.nil_append, List.map_cons, List.map_nil,
    List.cons_append, List.append_nil]
  grind

theorem labelled : Closed Instr.Plain @Labelled where
  simple _ := Instr.Simple.plain
  emit i hi := .of_unlabelled (fun _ ↦ rfl) fun _ ↦ by simp [hi.1]
  pure a := .of_unlabelled (fun _ ↦ rfl) fun _ ↦ rfl
  bind_value := .bind
  name taken stem := .of_unlabelled (fun _ ↦ rfl) fun _ ↦ rfl
  unsupported what pos := .of_unlabelled (fun _ ↦ rfl) fun _ ↦ rfl
  and s _ _ := Labelled.lowerAnd s
  ite s cond _ _ := Labelled.lowerIf s cond
  loop s cond _ := Labelled.lowerWhile s cond

end MiniJava.Lower

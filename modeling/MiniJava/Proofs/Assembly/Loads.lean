import Mathlib.Tactic.SplitIfs
import MiniJava.Proofs.Assembly.Does

namespace MiniJava.Jasmin

open Tac

variable {V W α : Type} {J : Interp V W} {lines part : List (Line Opcode)} {L : Locals V}
  {pc : Nat} {S : List V} {ρ : Store V} {this : V} {c : Tac.Class} {m : Tac.Method}

theorem bind_eq_ok {ε β : Type} {x : Except ε α} {f : α → Except ε β} {b : β} :
    x >>= f = .ok b ↔ ∃ a, x = .ok a ∧ f a = .ok b := by
  cases x with
  | error e => simp [bind, Except.bind]
  | ok a => simp [bind, Except.bind]

theorem exec_constant (v : Int32) (w : W) :
    (Opcode.constant v).exec J L w S = .next (J.int v.toInt :: S) L w := by
  simp only [Opcode.constant, Bool.and_eq_true, decide_eq_true_eq, Int32.le_iff_toInt_le]
  split_ifs with h₁ h₂ h₃
  · simp only [Opcode.exec, Bool.and_eq_true, decide_eq_true_eq, Int32.le_iff_toInt_le]
    rw [if_pos h₁]
  · have hv : v.toInt.bmod (2 ^ 8) = v.toInt := by
      refine Int.bmod_eq_of_le ?_ ?_
      · exact h₂.1
      · exact Int.lt_of_le_of_lt h₂.2 (by decide)
    simp only [Opcode.exec, Int32.toInt_toInt8, hv]
  · have hv : v.toInt.bmod (2 ^ 16) = v.toInt := by
      refine Int.bmod_eq_of_le ?_ ?_
      · exact h₃.1
      · exact Int.lt_of_le_of_lt h₃.2 (by decide)
    simp only [Opcode.exec, Int32.toInt_toInt16, hv]
  · rfl

def Holding (m : Tac.Method) (ρ : Store V) (L : Locals V) : Prop :=
  ∀ x i t, m.slots.get? x = some (i, t) → L i = ρ x

theorem slot_eq_ok {x : String} {k : Kind} {i : Nat} (h : slot m x = .ok (k, i)) :
    ∃ t, m.slots.get? x = some (i, t) := by
  unfold slot at h
  split at h
  · next j t hx =>
    obtain ⟨-, rfl⟩ := Prod.mk.inj (Except.ok.inj h)
    exact ⟨t, hx⟩
  · exact absurd h nofun

section

variable (hh : Holding m ρ L)

include hh

theorem does_load (c : Tac.Class) {x : Operand} (h : load m x = .ok part) (hat : At lines pc part)
    (hthis : ∀ cls, .this cls ∈ x.parts → L 0 = this) :
    Does J lines L pc part S (x.eval (J.tac c this) ρ) (· :: S) := by
  induction x generalizing part pc S with
  | lit v t =>
    obtain rfl := Except.ok.inj h
    exact .op hat fun w ↦ exec_constant v w
  | var x t | param i x t =>
    obtain ⟨⟨k, i⟩, hs, h⟩ := bind_eq_ok.1 h
    obtain rfl := Except.ok.inj h
    obtain ⟨t, ht⟩ := slot_eq_ok hs
    refine .op hat fun w ↦ ?_
    simp only [Opcode.exec, hh x i t ht]
    rfl
  | elem array index t iha ihi =>
    obtain ⟨as, ha, h⟩ := bind_eq_ok.1 h
    obtain ⟨is, hi, h⟩ := bind_eq_ok.1 h
    obtain rfl := Except.ok.inj h
    have harray := iha ha hat.left.left (S := S) fun cls hc ↦
      hthis cls (List.mem_cons_of_mem _ (List.mem_append_left _ hc))
    rw [List.append_assoc] at hat ⊢
    refine harray.bind fun a ↦ (ihi hi hat.right.left fun cls hc ↦
      hthis cls (List.mem_cons_of_mem _ (List.mem_append_right _ hc))).bind fun i ↦ ?_
    exact .op hat.right.right fun w ↦ rfl
  | this cls =>
    obtain rfl := Except.ok.inj h
    refine .op hat fun w ↦ ?_
    simp only [Opcode.exec, hthis cls (List.mem_singleton_self _)]
    rfl
  | cls name => exact absurd h nofun

theorem does_loadAll (c : Tac.Class) {xs : List Operand} (h : loadAll m xs = .ok part)
    (hat : At lines pc part)
    (hthis : ∀ cls, .this cls ∈ xs.flatMap Operand.parts → L 0 = this) :
    Does J lines L pc part S (Operand.evalAll (J.tac c this) ρ xs) (·.reverse ++ S) := by
  induction xs generalizing part pc S with
  | nil =>
    obtain rfl := Except.ok.inj h
    exact .nil rfl
  | cons x xs ih =>
    obtain ⟨first, hf, h⟩ := bind_eq_ok.1 h
    obtain ⟨rest, hr, h⟩ := bind_eq_ok.1 h
    obtain rfl := Except.ok.inj h
    refine (does_load hh c hf hat.left fun cls hc ↦ hthis cls ?_).bind fun v ↦ ?_
    · exact List.mem_flatMap.2 ⟨x, List.mem_cons_self, hc⟩
    · refine (ih hr hat.right fun cls hc ↦ hthis cls ?_).map (v :: ·) rfl fun vs ↦ by simp
      obtain ⟨y, hy, hc⟩ := List.mem_flatMap.1 hc
      exact List.mem_flatMap.2 ⟨y, List.mem_cons_of_mem x hy, hc⟩

end

end MiniJava.Jasmin

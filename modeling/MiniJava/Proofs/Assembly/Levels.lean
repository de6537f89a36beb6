import Mathlib.Algebra.BigOperators.Group.List.Basic
import Mathlib.Algebra.Ring.Int.Defs
import MiniJava.Proofs.Semantics.Paths

namespace MiniJava.Jasmin

def recorded (part : List (Line Opcode)) : Int := (part.map Line.delta).sum

@[simp] theorem recorded_nil : recorded [] = 0 := rfl

@[simp] theorem recorded_cons (x : Line Opcode) (part : List (Line Opcode)) :
    recorded (x :: part) = x.delta + recorded part := rfl

@[simp] theorem recorded_append (part part' : List (Line Opcode)) :
    recorded (part ++ part') = recorded part + recorded part' := by
  simp [recorded]

def Line.Takes (Γ : String → Option Nat) (d d' : Nat) : Line Opcode → Prop
  | .label l => Γ l = some d ∧ d' = d
  | .comment _ => d' = d
  | .op o _ => o.pops ≤ d ∧ (o.Falls → (d' : Int) = d + o.effect) ∧
      ∀ l, o.target? = some l → ∃ e : Nat, Γ l = some e ∧ (e : Int) = d + o.effect

/-- Depths before each of some lines, starting with `d` and ending with `e`. None is more than what
is recorded on the way from `t` to `u`. -/
inductive Levels (Γ : String → Option Nat) : Nat → Int → List (Line Opcode) → Nat → Int → Prop
  | nil {d : Nat} {t : Int} : d ≤ t → Levels Γ d t [] d t
  | cons {d d' e : Nat} {t u : Int} {x : Line Opcode} {part : List (Line Opcode)} :
      d ≤ t → x.Takes Γ d d' → Levels Γ d' (t + x.delta) part e u → Levels Γ d t (x :: part) e u

variable {Γ : String → Option Nat} {d e f : Nat} {t u v : Int}
  {part part' lines : List (Line Opcode)}

namespace Levels

theorem append (h : Levels Γ d t part e u) (h' : Levels Γ e u part' f v) :
    Levels Γ d t (part ++ part') f v := by
  induction h with
  | nil => exact h'
  | cons hd hx _ ih => exact .cons hd hx (ih h')

theorem eq_recorded (h : Levels Γ d t part e u) : u = t + recorded part := by
  induction h with
  | nil => simp
  | cons _ _ _ ih => rw [ih, recorded_cons, Int.add_assoc]

theorem exists_level (h : Levels Γ d t part e u) : ∃ level : Nat → Nat, level 0 = d ∧
    (∀ k ≤ part.length, (level k : Int) ≤ t + recorded (part.take k)) ∧
    ∀ (k : Nat) (x : Line Opcode), part[k]? = some x → x.Takes Γ (level k) (level (k + 1)) := by
  induction h with
  | @nil d t hd =>
    refine ⟨fun _ ↦ d, rfl, fun k hk ↦ ?_, fun k x hx ↦ by simp at hx⟩
    simpa using hd
  | @cons d d' e t u x part hd hx _ ih =>
    obtain ⟨level, rfl, hle, htakes⟩ := ih
    refine ⟨fun | 0 => d | k + 1 => level k, rfl, fun k hk ↦ ?_, fun k y hy ↦ ?_⟩
    · cases k with
      | zero => simpa using hd
      | succ k =>
        have hk := hle k (by simpa using hk)
        simp only [List.take_succ_cons, recorded_cons]
        omega
    · cases k with
      | zero =>
        obtain rfl := Option.some.inj hy
        exact hx
      | succ k => exact htakes k y hy

end Levels

/-- Each path has the depths of its lines. -/
theorem Visits.eq_level {level : Nat → Nat} (hzero : level 0 = 0)
    (hl : ∀ (k : Nat) (x : Line Opcode), lines[k]? = some x → x.Takes Γ (level k) (level (k + 1)))
    {pc : Nat} {z : Int} (h : Visits lines pc z) : z = level pc := by
  induction h with
  | start => simp [hzero]
  | label _ hx ih => rw [ih, (hl _ _ hx).2]
  | comment _ hx ih => rw [ih, (hl _ _ hx : _ = _)]
  | fall _ hx hfalls ih => rw [ih, (hl _ _ hx).2.1 hfalls]
  | jump _ hx htarget hlabel ih =>
    -- The line of the label has the depth that the label has wherever it is jumped to.
    obtain ⟨e, he, heq⟩ := (hl _ _ hx).2.2 _ htarget
    obtain rfl := Option.some.inj (he.symm.trans (hl _ _ hlabel).1)
    rw [ih, heq]

theorem Visits.le_length {pc : Nat} {z : Int} (h : Visits lines pc z) : pc ≤ lines.length := by
  cases h with
  | start => exact Nat.zero_le _
  | label _ hx | comment _ hx | fall _ hx _ => exact (List.getElem?_eq_some_iff.1 hx).1
  | jump _ _ _ hlabel => exact Nat.le_of_lt (List.getElem?_eq_some_iff.1 hlabel).1

/-- Lines whose own account is right between their ends. -/
def Balanced (Γ : String → Option Nat) (d : Nat) (part : List (Line Opcode)) (e : Nat) : Prop :=
  Levels Γ d d part e e

namespace Balanced

theorem nil : Balanced Γ d [] d := Levels.nil (Int.le_refl _)

theorem append (h : Balanced Γ d part e) (h' : Balanced Γ e part' f) :
    Balanced Γ d (part ++ part') f := Levels.append h h'

theorem recorded_eq (h : Balanced Γ d part e) : recorded part = e - d := by
  have hu := Levels.eq_recorded h
  omega

theorem op {o : Opcode} {δ : Int} (he : e + o.pops = d + o.pushes) (hδ : δ = o.effect)
    (ht : o.target? = none) (hpops : o.pops ≤ d) : Balanced Γ d [.op o δ] e := by
  unfold Opcode.effect at hδ
  have htakes : (Line.op o δ).Takes Γ d e :=
    ⟨hpops, fun _ ↦ by unfold Opcode.effect; omega, fun l hl ↦ absurd (ht ▸ hl) nofun⟩
  refine Levels.cons (Int.le_refl _) htakes ?_
  have he' : (d : Int) + δ = e := by omega
  simp only [Line.delta, he']
  exact .nil (Int.le_refl _)

theorem jump {test : Jump} {l : String} {δ : Int} (he : e + (Opcode.jump test l).pops = d)
    (hδ : δ = (Opcode.jump test l).effect) (hl : Γ l = some e) :
    Balanced Γ d [.op (.jump test l) δ] e := by
  have heffect : (e : Int) = d + (Opcode.jump test l).effect := by
    simp only [Opcode.effect, Opcode.pushes]
    omega
  have htakes : (Line.op (.jump test l) δ).Takes Γ d e :=
    ⟨by omega, fun _ ↦ heffect, fun l' hl' ↦ ⟨e, Option.some.inj hl' ▸ hl, heffect⟩⟩
  refine Levels.cons (Int.le_refl _) htakes ?_
  simp only [Line.delta, hδ, ← heffect]
  exact .nil (Int.le_refl _)

theorem label {l : String} (hl : Γ l = some d) : Balanced Γ d [.label l] d := by
  refine Levels.cons (Int.le_refl _) ⟨hl, rfl⟩ ?_
  simp only [Line.delta, Int.add_zero]
  exact .nil (Int.le_refl _)

end Balanced

/-- A body is safe if its lines have depths that are recorded in full. -/
theorem Body.StackSafe.of_levels {b : Body} (h : Levels Γ 0 0 b.lines e u)
    (hmax : ∀ k, recorded (b.lines.take k) ≤ b.maxDepth)
    (hlabel : ∀ l d, Γ l = some d → .label l ∈ b.lines) : b.StackSafe := by
  obtain ⟨level, hzero, hle, htakes⟩ := h.exists_level
  have hlevel {pc : Nat} {z : Int} (hv : Visits b.lines pc z) : z = level pc :=
    hv.eq_level hzero htakes
  constructor
  case same =>
    intro pc d d' hv hv'
    rw [hlevel hv, hlevel hv']
  case nonneg =>
    intro pc d hv
    rw [hlevel hv]
    exact Int.natCast_nonneg _
  case le_max =>
    intro pc d hv
    have hpc := hle pc hv.le_length
    have hrecorded := hmax pc
    rw [hlevel hv]
    omega
  case enough =>
    intro pc d o e hv hx
    rw [hlevel hv]
    exact Int.ofNat_le.2 (htakes pc _ hx).1
  case lands =>
    intro pc d o e l _ hx hl
    obtain ⟨d', hd', -⟩ := (htakes pc _ hx).2.2 l hl
    exact List.mem_iff_getElem?.1 (hlabel l d' hd')

end MiniJava.Jasmin

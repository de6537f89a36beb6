import MiniJava.Proofs.Lowering.Closure

namespace MiniJava

open Tac

def Tac.Instr.reason? : Instr → Option String
  | .invalid what => some what
  | _ => none

def Finding.unsupported? : Finding → Option String
  | .located (.unsupported what) _ => some what
  | _ => none

namespace Lower

variable {α : Type}

/-- Findings and placeholders tell of the same constructs in the same order. -/
def Announced (x : Lower α) : Prop := ∀ n,
  (x n).findings.map Finding.unsupported? = ((x n).code.filterMap Instr.reason?).map some

theorem Announced.of_code {x : Lower α} (hf : ∀ n, (x n).findings = [])
    (hc : ∀ n, (x n).code.filterMap Instr.reason? = []) : Announced x := by
  intro n
  rw [hf, hc]
  rfl

theorem announced : Closed Instr.Plain @Announced where
  simple _ := Instr.Simple.plain
  emit i hi := by
    refine .of_code (fun _ ↦ rfl) fun n ↦ ?_
    cases i <;> first | rfl | exact absurd rfl (hi.2.2 _)
  pure a := .of_code (fun _ ↦ rfl) fun _ ↦ rfl
  bind_value hx hf n := by
    rw [bind_apply]
    simp only [List.map_append, List.filterMap_append, hx n, hf _ _]
  name taken stem := .of_code (fun _ ↦ rfl) fun _ ↦ rfl
  unsupported what pos n := rfl
  and s _ _ hl hr n := by
    rw [s.lowerAnd_apply]
    simp [List.filterMap_cons, Instr.reason?, hl n, hr _]
  ite s cond _ _ hc hb ho n := by
    rw [s.lowerIf_apply]
    simp [List.filterMap_cons, Instr.reason?, hc _, hb _, ho _]
  loop s cond _ hc hb n := by
    rw [s.lowerWhile_apply]
    simp [List.filterMap_cons, Instr.reason?, hc _, hb _]

theorem Announced.findings_eq_nil_iff {x : Lower α} (h : Announced x) (n : Numbering) :
    (x n).findings = [] ↔ ∀ what, .invalid what ∉ (x n).code := by
  have hn : (x n).findings = [] ↔ (x n).code.filterMap Instr.reason? = [] := by
    rw [← List.map_eq_nil_iff (f := Finding.unsupported?), h n, List.map_eq_nil_iff]
  rw [hn, List.filterMap_eq_nil_iff]
  constructor
  · intro hall what hw
    exact absurd (hall _ hw) (by simp [Instr.reason?])
  · intro hall i hi
    cases i <;> first | rfl | exact absurd hi (hall _)

end Lower

end MiniJava

import MiniJava.Proofs.Lowering.Silence

namespace MiniJava.Program

variable {p : Program}

/-- Lowering reports something just if the checker reports a name or something is assigned to a
class. -/
theorem lowering_fails_iff : p.lower.2 ≠ [] ↔ (∃ f ∈ p.check, f.IsName) ∨
    ∃ m ∈ p.cls.methods, ∃ stmt ∈ m.body, ∃ x, Stmt.Within x stmt ∧
      ∃ id ∈ x.target?, (p.bodyScope m).binding id.name = .cls := by
  have hsplit (s : Scope) (x : Stmt) : s.NamesStmt Binding.Assignable x ↔
      s.NamesStmt (· ≠ .undeclared) x ∧ ∀ id ∈ x.target?, s.binding id.name ≠ .cls := by
    simp only [Scope.namesStmt_iff, Binding.Assignable, forall₂_and]
    tauto
  have hsilent : p.lower.2 = [] ↔ NameFree p.check ∧
      ∀ m ∈ p.cls.methods, ∀ stmt ∈ m.body, ∀ x, Stmt.Within x stmt →
        ∀ id ∈ x.target?, (p.bodyScope m).binding id.name ≠ .cls := by
    simp only [findings_lower_iff, nameFree_check_iff, hsplit, forall₂_and]
  rw [Ne, hsilent, not_and_or]
  simp only [NameFree, not_forall, not_not, exists_prop]

end MiniJava.Program

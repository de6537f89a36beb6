import MiniJava.Proofs.Assembly.BodyLabels
import MiniJava.Proofs.StackSafety

namespace MiniJava

open Tac Lower

theorem Tac.Method.mem_labels {m : Tac.Method} {l : String} {k : Nat} :
    (l, k) ∈ m.labels ↔ m.code[k]? = some (.label l) := by
  rw [Method.labels_eq, mem_labelMap]

theorem labelNames_flatMap {α : Type} (xs : List α) (f : α → List Instr) :
    labelNames (xs.flatMap f) = xs.flatMap fun x ↦ labelNames (f x) := List.filterMap_flatMap

theorem MethodDecl.labelled (m : MethodDecl) (t : Symbols) : Labelled (m.lower t) :=
  Lower.labelled.lowerStmts _ m.body

theorem MethodDecl.targeted (m : MethodDecl) (t : Symbols) : Targeted (m.lower t) :=
  Lower.targeted.lowerStmts _ m.body

theorem MethodDecl.code_withBody (m : MethodDecl) (cls : String) (body : List Instr) :
    (m.withBody cls body).code = closeBody (.ofTy m.ret.ty) body := rfl

/-- Methods that are numbered on from `n` have labels that were new at `n`. -/
theorem Symbols.between_lowerMethods (t : Symbols) (n : Numbering) (ms : List MethodDecl) :
    ∃ b, n.label ≤ b ∧
      Between n.label b (labelNames ((t.lowerMethods n ms).1.flatMap (·.code))) := by
  induction ms generalizing n with
  | nil => exact ⟨n.label, Nat.le_refl _, .nil⟩
  | cons m ms ih =>
    obtain ⟨hle, hm⟩ := m.labelled t n
    obtain ⟨b, hb, hms⟩ := ih (m.lower t n).next
    refine ⟨b, Nat.le_trans hle hb, ?_⟩
    have hcode : (t.lowerMethods n (m :: ms)).1.flatMap (·.code) =
        closeBody (.ofTy m.ret.ty) (m.lower t n).code ++
          (t.lowerMethods (m.lower t n).next ms).1.flatMap (·.code) := rfl
    rw [hcode, labelNames_append, labelNames_closeBody]
    exact hm.append hms hle hb

namespace Program

theorem between_lower (p : Program) :
    ∃ b, Between 0 b (labelNames (p.lower.1.methods.flatMap (·.code))) := by
  obtain ⟨b, -, hb⟩ := p.symbols.between_lowerMethods {} p.cls.methods
  exact ⟨b, hb⟩

theorem targets_lower {p : Program} {m : Tac.Method} (hm : m ∈ p.lower.1.methods) :
    targetNames m.code ⊆ labelNames m.code := by
  rcases List.mem_cons.1 hm with rfl | hm
  · exact List.nil_subset _
  · obtain ⟨d, -, n, rfl⟩ := mem_lowerMethods hm
    rw [MethodDecl.code_withBody, targetNames_closeBody, labelNames_closeBody]
    exact d.targeted p.symbols n

/-- In the whole class no label is defined twice, neither in three-address code nor in assembly, and
each jump finds its label in its own method. -/
theorem labels_land (p : Program) :
    (p.lower.1.methods.flatMap fun m ↦ labelNames m.code).Nodup ∧
      (∀ m ∈ p.lower.1.methods, targetNames m.code ⊆ labelNames m.code ∧
        ∀ l k, (l, k) ∈ m.labels ↔ m.code[k]? = some (.label l)) ∧
      ((Jasmin.bodies p.lower.1 0 p.lower.1.methods).flatMap
        fun b ↦ Jasmin.lineLabels b.lines).Nodup ∧
      ∀ b ∈ Jasmin.bodies p.lower.1 0 p.lower.1.methods,
        Jasmin.lineTargets b.lines ⊆ Jasmin.lineLabels b.lines := by
  obtain ⟨b, hb⟩ := p.between_lower
  have hu := hb.nodup
  obtain ⟨b', hmarks⟩ := Jasmin.marks_bodies p.lower.1 p.lower.1.methods 0
    (apart_of_between hb) hu
  refine ⟨?_, fun m hm ↦ ⟨targets_lower hm, fun l k ↦ Method.mem_labels⟩, ?_, fun b hb ↦ ?_⟩
  · rwa [labelNames_flatMap] at hu
  · have hn := hmarks.nodup
    rwa [Jasmin.lineLabels, List.filterMap_flatMap] at hn
  · obtain ⟨m, hm, k, rfl⟩ := Jasmin.mem_bodies hb
    exact Jasmin.lands_body _ m k (targets_lower hm)

end Program

end MiniJava

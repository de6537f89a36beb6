import MiniJava.Proofs.Lowering.Labels

namespace MiniJava.Lower

open Tac

variable {α : Type}

def targetNames (code : List Instr) : List String := code.filterMap Instr.target?

@[simp] theorem targetNames_nil : targetNames [] = [] := rfl

@[simp] theorem targetNames_append (a b : List Instr) :
    targetNames (a ++ b) = targetNames a ++ targetNames b := by simp [targetNames]

@[simp] theorem targetNames_cons (i : Instr) (is : List Instr) :
    targetNames (i :: is) = i.target?.toList ++ targetNames is := by
  simp only [targetNames, List.filterMap_cons]
  cases i.target? <;> rfl

def Targeted (x : Lower α) : Prop := ∀ n, targetNames (x n).code ⊆ labelNames (x n).code

theorem Targeted.of_unjumping {x : Lower α} (h : ∀ n, targetNames (x n).code = []) :
    Targeted x := by
  intro n
  rw [h]
  exact List.nil_subset _

theorem targeted : Closed Instr.Plain @Targeted where
  simple _ := Instr.Simple.plain
  emit i hi := .of_unjumping fun _ ↦ by simp [hi.2.1]
  pure a := .of_unjumping fun _ ↦ rfl
  bind_value hx hf n := by
    rw [bind_apply, targetNames_append, labelNames_append]
    exact List.append_subset.2 ⟨List.subset_append_of_subset_left _ (hx n),
      List.subset_append_of_subset_right _ (hf _ _)⟩
  name taken stem := .of_unjumping fun _ ↦ rfl
  unsupported what pos := .of_unjumping fun _ ↦ rfl
  and s left right hl hr n := by
    rw [s.lowerAnd_apply]
    have hl := hl n
    have hr := hr (s.freshTemp .bool { (left n).next with label := (left n).next.label + 1 }).next
    simp only [targetNames_append, targetNames_cons, targetNames_nil, labelNames_append,
      labelNames_cons, labelNames_nil, Instr.target?, Instr.label?, Option.toList_none,
      Option.toList_some]
    grind
  ite s cond body other hc hb ho n := by
    rw [s.lowerIf_apply]
    have hc := hc { n with label := n.label + 1 }
    have hb := hb (s.lowerCond cond { n with label := n.label + 1 }).next
    have ho := ho (body (s.lowerCond cond { n with label := n.label + 1 }).next).next
    simp only [targetNames_append, targetNames_cons, targetNames_nil, labelNames_append,
      labelNames_cons, labelNames_nil, Instr.target?, Instr.label?, Option.toList_none,
      Option.toList_some]
    grind
  loop s cond body hc hb n := by
    rw [s.lowerWhile_apply]
    have hc' := hc { n with label := n.label + 1 }
    have hb := hb (s.lowerCond cond { n with label := n.label + 1 }).next
    have hc'' := hc (body (s.lowerCond cond { n with label := n.label + 1 }).next).next
    simp only [targetNames_append, targetNames_cons, targetNames_nil, labelNames_append,
      labelNames_cons, labelNames_nil, Instr.target?, Instr.label?, Option.toList_none,
      Option.toList_some]
    grind

end MiniJava.Lower

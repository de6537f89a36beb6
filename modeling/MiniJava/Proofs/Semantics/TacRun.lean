import MiniJava.Proofs.Semantics.Placed
import MiniJava.Proofs.Semantics.Tac

namespace MiniJava.Tac

variable {V W : Type} {I : Interp V W} {code : List Instr}

theorem Run.one {a b : Config V W} (h : step I code a = .run b) : Run I code 1 a b :=
  .cons h (.zero b)

theorem Run.trans {a b c : Config V W} {n m : Nat} (h : Run I code n a b)
    (h' : Run I code m b c) : Run I code (n + m) a c := by
  induction h with
  | zero => simpa only [Nat.zero_add] using h'
  | cons hs _ ih => simpa only [Nat.add_right_comm] using Run.cons hs (ih h')

/-- Of two runs from one place the longer goes on where the shorter ends. -/
theorem Run.split {a b c : Config V W} {n k : Nat} (h : Run I code n a b)
    (h' : Run I code (n + k) a c) : Run I code k b c := by
  induction h with
  | zero => simpa only [Nat.zero_add] using h'
  | cons hs _ ih =>
    rw [Nat.add_right_comm] at h'
    cases h' with
    | cons hs' hr =>
      rw [hs, Step.run.injEq] at hs'
      exact ih (hs' ▸ hr)

theorem Run.eq_zero_of_final {a b : Config V W} {n : Nat} (h : Run I code n a b)
    (ha : ∀ c, step I code a ≠ .run c) : n = 0 ∧ a = b := by
  cases h with
  | zero => exact ⟨rfl, rfl⟩
  | cons hs _ => exact absurd hs (ha _)

theorem Run.take {a c : Config V W} {n m : Nat} (h : Run I code n a c) (hm : m ≤ n) :
    ∃ b, Run I code m a b := by
  induction h generalizing m with
  | zero c =>
    obtain rfl := Nat.le_zero.1 hm
    exact ⟨c, .zero c⟩
  | @cons n a b c hs _ ih =>
    cases m with
    | zero => exact ⟨a, .zero a⟩
    | succ m =>
      obtain ⟨d, hd⟩ := ih (Nat.le_of_succ_le_succ hm)
      exact ⟨d, .cons hs hd⟩

theorem Reaches.refl (a : Config V W) : Reaches I code a a := ⟨0, .zero a⟩

theorem Reaches.one {a b : Config V W} (h : step I code a = .run b) : Reaches I code a b :=
  ⟨1, .one h⟩

theorem Reaches.trans {a b c : Config V W} (h : Reaches I code a b) (h' : Reaches I code b c) :
    Reaches I code a c := by
  obtain ⟨n, hn⟩ := h
  obtain ⟨m, hm⟩ := h'
  exact ⟨n + m, hn.trans hm⟩

theorem Reaches.head {a b c : Config V W} (h : step I code a = .run b)
    (h' : Reaches I code b c) : Reaches I code a c := (Reaches.one h).trans h'

theorem Reaches.to_pc {a : Config V W} {pc pc' : Nat} {ρ : Store V} {w : W}
    (h : Reaches I code a ⟨pc, ρ, w⟩) (hpc : pc = pc') : Reaches I code a ⟨pc', ρ, w⟩ := hpc ▸ h

theorem Reaches.returns {a b : Config V W} {v : Option V} {ρ : Store V} {w : W}
    (h : Reaches I code a b) (h' : Returns I code b v ρ w) : Returns I code a v ρ w := by
  obtain ⟨c, hr, hs⟩ := h'
  exact ⟨c, h.trans hr, hs⟩

theorem Reaches.aborts {a b : Config V W} {ρ : Store V} {w : W}
    (h : Reaches I code a b) (h' : Aborts I code b ρ w) : Aborts I code a ρ w := by
  obtain ⟨c, hr, hs⟩ := h'
  exact ⟨c, h.trans hr, hs⟩

theorem Run.le_of_final {a b c : Config V W} {n m : Nat} (h : Run I code n a b)
    (h' : Run I code m a c) (hb : ∀ d, step I code b ≠ .run d) : m ≤ n := by
  rcases Nat.le_total m n with hmn | hnm
  · exact hmn
  · obtain ⟨k, rfl⟩ := Nat.exists_eq_add_of_le hnm
    have hk := (h.split h').eq_zero_of_final hb
    omega

theorem Reaches.eq_of_final {a b c : Config V W} (h : Reaches I code a b)
    (h' : Reaches I code a c) (hb : ∀ d, step I code b ≠ .run d)
    (hc : ∀ d, step I code c ≠ .run d) : b = c := by
  obtain ⟨n, hn⟩ := h
  obtain ⟨m, hm⟩ := h'
  obtain rfl : n = m := Nat.le_antisymm (hm.le_of_final hn hc) (hn.le_of_final hm hb)
  exact ((hn.split (k := 0) hm).eq_zero_of_final hb).2

/-- All runs from one place end in the same way. -/
theorem Reaches.final_eq {a b c : Config V W} {x y : Step V W} (h : Reaches I code a b)
    (hx : step I code b = x) (h' : Reaches I code a c) (hy : step I code c = y)
    (hxr : ∀ d, x ≠ .run d) (hyr : ∀ d, y ≠ .run d) : b = c ∧ x = y := by
  subst hx hy
  obtain rfl := h.eq_of_final h' hxr hyr
  exact ⟨rfl, rfl⟩

theorem Reaches.endless {a b : Config V W} (h : Reaches I code a b) (h' : Endless I code b) :
    Endless I code a := by
  obtain ⟨k, hk⟩ := h
  intro n
  obtain ⟨c, hc⟩ := h' n
  exact (hk.trans hc).take (Nat.le_add_left n k)

theorem Endless.not_final {a b : Config V W} (h : Endless I code a) (hr : Reaches I code a b)
    (hb : ∀ c, step I code b ≠ .run c) : False := by
  obtain ⟨n, hn⟩ := hr
  obtain ⟨c, hc⟩ := h (n + 1)
  exact Nat.not_succ_le_self n (hn.le_of_final hc hb)

def labelNames (code : List Instr) : List String := code.filterMap Instr.label?

@[simp] theorem labelNames_nil : labelNames [] = [] := rfl

@[simp] theorem labelNames_append (a b : List Instr) :
    labelNames (a ++ b) = labelNames a ++ labelNames b := by simp [labelNames]

@[simp] theorem labelNames_cons (i : Instr) (c : List Instr) :
    labelNames (i :: c) = i.label?.toList ++ labelNames c := by
  simp only [labelNames, List.filterMap_cons]
  cases i.label? <;> simp

theorem label_of_label?_eq_some {i : Instr} {l : String} (h : i.label? = some l) :
    i = .label l := by
  cases i <;> simp_all [Instr.label?]

theorem mem_labelMap {l : String} {k : Nat} :
    (l, k) ∈ labelMap code ↔ code[k]? = some (.label l) := by
  simp only [labelMap, List.mem_filterMap, Option.map_eq_some_iff, Prod.mk.injEq, Prod.exists]
  constructor
  · rintro ⟨i, n, hi, l', hl, rfl, rfl⟩
    have hn := List.mem_zipIdx_iff_getElem?.1 hi
    exact label_of_label?_eq_some hl ▸ hn
  · intro h
    exact ⟨.label l, k, List.mem_zipIdx_iff_getElem?.2 h, l, rfl, rfl, rfl⟩

theorem getElem?_of_target? {l : String} {k : Nat} (h : target? code l = some k) :
    code[k]? = some (.label l) := by
  simp only [target?, List.findRev?_eq_findRev?TR, List.findRev?TR, Option.map_eq_some_iff] at h
  obtain ⟨⟨l', k'⟩, hf, rfl⟩ := h
  obtain rfl : l' = l := by simpa using List.find?_some hf
  exact mem_labelMap.1 (List.mem_reverse.1 (List.mem_of_find?_eq_some hf))

theorem target?_eq (h : (labelNames code).Nodup) {l : String} {pc : Nat}
    (hl : code[pc]? = some (.label l)) : target? code l = some pc := by
  cases ht : target? code l with
  | some k => rw [eq_of_getElem?_of_nodup h (getElem?_of_target? ht) hl rfl rfl]
  | none =>
    simp only [target?, List.findRev?_eq_findRev?TR, List.findRev?TR, Option.map_eq_none_iff,
      List.find?_eq_none] at ht
    exact absurd (by simp) (ht (l, pc) (List.mem_reverse.2 (mem_labelMap.2 hl)))

section

variable {pc : Nat} {ρ ρ' : Store V} {w w' : W} {i : Instr}

theorem step_eq_run (hi : code[pc]? = some i) (he : i.exec I ρ w = .next ρ' w') :
    step I code ⟨pc, ρ, w⟩ = .run ⟨pc + 1, ρ', w'⟩ := by
  simp only [step, hi, he]

theorem step_eq_aborted (hi : code[pc]? = some i) (he : i.exec I ρ w = .aborted ρ' w') :
    step I code ⟨pc, ρ, w⟩ = .aborted ρ' w' := by
  simp only [step, hi, he]

theorem step_eq_returned {v : Option V} (hi : code[pc]? = some i)
    (he : i.exec I ρ w = .returned v ρ' w') :
    step I code ⟨pc, ρ, w⟩ = .returned v ρ' w' := by
  simp only [step, hi, he]

theorem step_eq_jump (hu : (labelNames code).Nodup) {l : String} {k : Nat}
    (hi : code[pc]? = some i) (he : i.exec I ρ w = .jump l ρ' w')
    (hl : code[k]? = some (.label l)) :
    step I code ⟨pc, ρ, w⟩ = .run ⟨k, ρ', w'⟩ := by
  simp only [step, hi, he, target?_eq hu hl, Option.elim_some]

theorem exec_branch_true {c : Cond} {v : V} {l : String} (hc : c.eval I ρ w = .done v w')
    (hv : I.isTrue v = true) : (Instr.branch c l).exec I ρ w = .jump l ρ w' := by
  simp only [Instr.exec, Flow.after, hc, hv, if_true]

theorem exec_branch_false {c : Cond} {v : V} {l : String} (hc : c.eval I ρ w = .done v w')
    (hv : I.isTrue v = false) : (Instr.branch c l).exec I ρ w = .next ρ w' := by
  simp only [Instr.exec, Flow.after, hc, hv, Bool.false_eq_true, if_false]

theorem reaches_label {l : String} (hi : code[pc]? = some (.label l)) (ρ : Store V) (w : W) :
    Reaches I code ⟨pc, ρ, w⟩ ⟨pc + 1, ρ, w⟩ := .one (step_eq_run hi rfl)

theorem reaches_goto (hu : (labelNames code).Nodup) {l : String} {k : Nat}
    (hi : code[pc]? = some (.goto l)) (hl : code[k]? = some (.label l)) (ρ : Store V) (w : W) :
    Reaches I code ⟨pc, ρ, w⟩ ⟨k + 1, ρ, w⟩ :=
  .head (step_eq_jump hu hi rfl hl) (reaches_label hl ρ w)

theorem step_of_length_le (h : code.length ≤ pc) :
    step I code ⟨pc, ρ, w⟩ = .stuck := by
  simp only [step, List.getElem?_eq_none h]

/-- Code whose last instruction is a return is never left at its end. -/
theorem step_pc_lt (hlast : code.getLast?.any Instr.isReturn) {a b : Config V W}
    (ha : a.pc < code.length) (hs : step I code a = .run b) : b.pc < code.length := by
  simp only [step, List.getElem?_eq_getElem ha] at hs
  split at hs
  · next ρ w he =>
    obtain rfl := Step.run.inj hs
    refine Nat.lt_of_le_of_ne ha fun hend ↦ ?_
    have hi : code.getLast? = some code[a.pc] := by
      rw [List.getLast?_eq_getElem?, ← hend, Nat.add_sub_cancel, List.getElem?_eq_getElem ha]
    rw [hi, Option.any_some] at hlast
    cases hr : code[a.pc] with
    | «return» t x =>
      rw [hr] at he
      cases x with
      | none => cases he
      | some x =>
        simp only [Instr.exec, Flow.after] at he
        split at he <;> cases he
    | _ => simp [hr, Instr.isReturn] at hlast
  · next l ρ w he =>
    cases ht : target? code l with
    | none => rw [ht] at hs; cases hs
    | some k =>
      rw [ht] at hs
      obtain rfl := Step.run.inj hs
      exact (List.getElem?_eq_some_iff.1 (getElem?_of_target? ht)).1
  all_goals cases hs

theorem Reaches.pc_lt (hlast : code.getLast?.any Instr.isReturn) {a b : Config V W}
    (h : Reaches I code a b) (ha : a.pc < code.length) : b.pc < code.length := by
  obtain ⟨n, hn⟩ := h
  induction hn with
  | zero => exact ha
  | cons hs _ ih => exact ih (step_pc_lt hlast ha hs)

end

end MiniJava.Tac

import Mathlib.Tactic.SplitIfs
import MiniJava.Jasmin.Class
import MiniJava.Proofs.Semantics.Machine

namespace MiniJava.Jasmin

namespace Opcode

def pops : Opcode → Nat
  | .iconst _ | .bipush _ | .sipush _ | .ldc _ | .load .. | .new _ | .jump .goto _
  | .return none => 0
  | .store .. | .getfield .. | .newarray _ | .arraylength | .pop | .return (some _) => 1
  | .arrayLoad _ | .arith _ | .putfield .. | .jump .ifIcmplt _ => 2
  | .jump .ifeq _ | .jump .ifne _ | .jump .iflt _ | .jump .ifgt _ => 1
  | .arrayStore _ => 3
  | .invoke mode _ _ desc => desc.arity mode

def pushes : Opcode → Nat
  | .iconst _ | .bipush _ | .sipush _ | .ldc _ | .load .. | .arrayLoad _ | .arith _ | .getfield ..
  | .new _ | .newarray _ | .arraylength => 1
  | .store .. | .arrayStore _ | .jump .. | .putfield .. | .pop | .return _ => 0
  | .invoke _ _ _ desc => if desc.ret = .void then 0 else 1

def effect (o : Opcode) : Int := o.pushes - o.pops

def target? : Opcode → Option String
  | .jump _ l => some l
  | _ => none

def Falls : Opcode → Prop
  | .jump .goto _ | .return _ => False
  | _ => True

end Opcode

/-- The places that paths from the first line come to, with the depth of the operand stack there. -/
inductive Visits (lines : List (Line Opcode)) : Nat → Int → Prop
  | start : Visits lines 0 0
  | label {pc : Nat} {d : Int} {l : String} :
      Visits lines pc d → lines[pc]? = some (.label l) → Visits lines (pc + 1) d
  | comment {pc : Nat} {d : Int} {text : String} :
      Visits lines pc d → lines[pc]? = some (.comment text) → Visits lines (pc + 1) d
  | fall {pc : Nat} {d e : Int} {o : Opcode} :
      Visits lines pc d → lines[pc]? = some (.op o e) → o.Falls →
      Visits lines (pc + 1) (d + o.effect)
  | jump {pc k : Nat} {d e : Int} {o : Opcode} {l : String} :
      Visits lines pc d → lines[pc]? = some (.op o e) → o.target? = some l →
      lines[k]? = some (Line.label l) → Visits lines k (d + o.effect)

def passing? : Line Opcode → Option Int
  | .op (.jump ..) _ | .op (.return _) _ => none
  | .op o _ => some o.effect
  | .label _ | .comment _ => some 0

def depthAfter? : List (Line Opcode) → Int → Option Int
  | [], d => some d
  | x :: part, d => (passing? x).bind fun e ↦ depthAfter? part (d + e)

/-- All paths to a line come there with one depth, which is that of a stack within the limit; each
operation finds as many values as it takes, and each jump its label. -/
structure Body.StackSafe (b : Body) : Prop where
  same : ∀ {pc d d'}, Visits b.lines pc d → Visits b.lines pc d' → d = d'
  nonneg : ∀ {pc d}, Visits b.lines pc d → 0 ≤ d
  le_max : ∀ {pc d}, Visits b.lines pc d → d ≤ b.maxDepth
  enough : ∀ {pc d o e}, Visits b.lines pc d → b.lines[pc]? = some (.op o e) → o.pops ≤ d
  lands : ∀ {pc d o e l}, Visits b.lines pc d → b.lines[pc]? = some (.op o e) →
    o.target? = some l → ∃ k : Nat, b.lines[k]? = some (.label l)

variable {V W : Type} {J : Interp V W} {lines : List (Line Opcode)} {L : Locals V} {w : W}

def Flow.Counts (o : Opcode) (n : Int) : Flow V W → Prop
  | .next S _ _ => o.Falls ∧ (S.length : Int) = n + o.effect
  | .jump l S _ _ => o.target? = some l ∧ (S.length : Int) = n + o.effect
  | .returned .. | .aborted _ | .stuck => True

theorem counts_after {α : Type} {o : Opcode} {n : Int} (x : Effect W α)
    {rest : α → W → Flow V W} (h : ∀ a w', (rest a w').Counts o n) :
    (Flow.after x w rest).Counts o n := by
  unfold Flow.after
  cases x w with
  | done a w' => exact h a w'
  | abort w' => trivial

theorem counts_pop {o : Opcode} {n : Int} {S : List V} {rest : V → List V → Flow V W}
    (h : ∀ v T, T.length + 1 = S.length → (rest v T).Counts o n) :
    (Flow.pop S rest).Counts o n := by
  cases S with
  | nil => trivial
  | cons v T => exact h v T rfl

theorem counts_when {t : Jump} {n : Int} (b : Bool) {l : String} (S : List V) (ht : t ≠ .goto)
    (hn : (S.length : Int) = n + (Opcode.jump t l).effect) :
    (Flow.when b l S L w).Counts (.jump t l) n := by
  cases b with
  | true => exact ⟨rfl, hn⟩
  | false =>
    refine ⟨?_, hn⟩
    cases t <;> trivial

theorem effect_eq {o : Opcode} {S T : List V} (h : T.length + o.pops = S.length + o.pushes) :
    (T.length : Int) = S.length + o.effect := by
  unfold Opcode.effect
  omega

theorem counts_jump (t : Jump) (l : String) (S : List V) :
    (t.exec J l L w S).Counts (.jump t l) S.length := by
  cases t with
  | goto => exact ⟨rfl, effect_eq rfl⟩
  | ifeq | ifne | iflt | ifgt =>
    exact counts_pop fun v T hT ↦ counts_when _ T nofun (effect_eq hT)
  | ifIcmplt =>
    refine counts_pop fun b T hT ↦ counts_pop fun a U hU ↦ counts_when _ U nofun (effect_eq ?_)
    simp only [Opcode.pops, Opcode.pushes]
    omega

/-- The machine keeps to the numbers of values that an opcode takes and puts. -/
theorem counts_exec (o : Opcode) (S : List V) : (o.exec J L w S).Counts o S.length := by
  cases o with
  | iconst v =>
    simp only [Opcode.exec]
    split_ifs
    · exact ⟨trivial, effect_eq rfl⟩
    · trivial
  | bipush | sipush | ldc | load => exact ⟨trivial, effect_eq rfl⟩
  | new => exact counts_after _ fun _ _ ↦ ⟨trivial, effect_eq rfl⟩
  | store | pop => exact counts_pop fun _ _ hT ↦ ⟨trivial, effect_eq hT⟩
  | getfield | newarray | arraylength =>
    exact counts_pop fun _ _ hT ↦ counts_after _ fun _ _ ↦
      ⟨trivial, effect_eq (congrArg (· + 0 + 1) hT)⟩
  | arrayLoad | arith | putfield =>
    refine counts_pop fun _ T hT ↦ counts_pop fun _ U hU ↦ counts_after _ fun _ _ ↦
      ⟨trivial, effect_eq ?_⟩
    simp only [Opcode.pops, Opcode.pushes, List.length_cons]
    omega
  | arrayStore =>
    refine counts_pop fun _ T hT ↦ counts_pop fun _ U hU ↦ counts_pop fun _ X hX ↦
      counts_after _ fun _ _ ↦ ⟨trivial, effect_eq ?_⟩
    simp only [Opcode.pops, Opcode.pushes]
    omega
  | jump t l => exact counts_jump t l S
  | invoke mode owner method desc =>
    simp only [Opcode.exec]
    by_cases hfew : S.length < desc.arity mode
    · rw [if_pos hfew]
      trivial
    · rw [if_neg hfew]
      refine counts_after _ fun v _ ↦ ⟨trivial, effect_eq ?_⟩
      have hdrop : (S.drop (desc.arity mode)).length + desc.arity mode = S.length := by
        rw [List.length_drop]
        omega
      simp only [Opcode.pops, Opcode.pushes]
      split_ifs
      · exact hdrop
      · rw [List.length_cons, ← hdrop]
        omega
  | «return» kind =>
    cases kind with
    | none => trivial
    | some k => exact counts_pop fun _ _ _ ↦ trivial

theorem getElem?_of_target? {l : String} {k : Nat} (h : target? lines l = some k) :
    lines[k]? = some (.label l) := by
  obtain ⟨hk, hl, -⟩ := List.findIdx?_eq_some_iff_getElem.1 h
  rw [List.getElem?_eq_getElem hk]
  cases hline : lines[k] <;> simp_all [Line.label?]

theorem Visits.pass {part : List (Line Opcode)} {pc : Nat} {d e : Int} (h : Visits lines pc d)
    (hat : At lines pc part) (he : depthAfter? part d = some e) :
    Visits lines (pc + part.length) e := by
  induction part generalizing pc d with
  | nil =>
    obtain rfl := Option.some.inj he
    exact h
  | cons x part ih =>
    obtain ⟨δ, hx, he⟩ := Option.bind_eq_some_iff.1 he
    have hnext : Visits lines (pc + 1) (d + δ) := by
      cases x with
      | label l =>
        obtain rfl := Option.some.inj hx
        exact (Int.add_zero d).symm ▸ h.label hat.head
      | comment text =>
        obtain rfl := Option.some.inj hx
        exact (Int.add_zero d).symm ▸ h.comment hat.head
      | op o ε =>
        have hfalls : o.Falls ∧ δ = o.effect := by
          cases o with
          | jump | «return» => exact absurd hx nofun
          | iconst | bipush | sipush | ldc | load | store | arrayLoad | arrayStore | arith
          | getfield | putfield | invoke | new | newarray | arraylength | pop =>
            exact ⟨trivial, (Option.some.inj hx).symm⟩
        exact hfalls.2 ▸ h.fall hat.head hfalls.1
    rw [List.length_cons, Nat.add_comm part.length, ← Nat.add_assoc]
    exact ih hnext hat.tail he

/-- A run of the machine follows one of the paths. -/
theorem Visits.of_reaches {a : Config V W} (h : Reaches J lines ⟨0, [], L, w⟩ a) :
    Visits lines a.pc a.stack.length := by
  induction h with
  | refl => exact .start
  | @tail b c _ hstep ih =>
    have hcounts (o : Opcode) := counts_exec (J := J) (L := b.slots) (w := b.world) o b.stack
    cases hline : lines[b.pc]? with
    | none => simp [step, hline] at hstep
    | some line =>
      cases line with
      | label l =>
        simp only [step, hline, Step.run.injEq] at hstep
        exact hstep ▸ ih.label hline
      | comment text =>
        simp only [step, hline, Step.run.injEq] at hstep
        exact hstep ▸ ih.comment hline
      | op o e =>
        have hcounts := hcounts o
        simp only [step, hline] at hstep
        cases hexec : o.exec J b.slots b.world b.stack with
        | next S L w =>
          rw [hexec] at hstep hcounts
          obtain rfl := Step.run.inj hstep
          obtain ⟨hfalls, hlen⟩ := hcounts
          exact hlen ▸ ih.fall hline hfalls
        | jump l S L w =>
          rw [hexec] at hstep hcounts
          obtain ⟨hl, hlen⟩ := hcounts
          cases htarget : target? lines l with
          | none => simp [htarget] at hstep
          | some k =>
            simp only [htarget, Option.elim_some, Step.run.injEq] at hstep
            subst hstep
            exact hlen ▸ ih.jump hline hl (getElem?_of_target? htarget)
        | returned | aborted | stuck => simp [hexec] at hstep

/-- The machine stays within the limit of a safe body. -/
theorem Body.StackSafe.length_le {b : Body} (h : b.StackSafe) {a : Config V W}
    (hr : Reaches J b.lines ⟨0, [], L, w⟩ a) : (a.stack.length : Int) ≤ b.maxDepth :=
  h.le_max (.of_reaches hr)

end MiniJava.Jasmin

import MiniJava.Proofs.Assembly.Calls
import MiniJava.Proofs.Assembly.Compare
import MiniJava.Proofs.Assembly.Ops
import MiniJava.Proofs.Assembly.SlotTable

namespace MiniJava

open Tac Jasmin

namespace Tac

def Instr.UsesThis : Instr → Prop
  | .putField .. | .assign _ _ (.field ..) => True
  | i => ∃ cls, .this cls ∈ i.mentions

theorem Instr.usesThis_of_mentions {i : Instr} {cls : String} (h : .this cls ∈ i.mentions) :
    i.UsesThis := by
  cases i with
  | putField => trivial
  | assign dest t r =>
    cases r with
    | field => trivial
    | value | arith | less | not | call => exact ⟨cls, h⟩
  | call | branch | goto | label | «return» | invalid => exact ⟨cls, h⟩

structure Instr.WellFormed (m : Tac.Method) (i : Instr) : Prop where
  shaped : ∀ k ∈ i.call?, k.Shaped
  assigned : ∀ dest t k, i = .assign dest t (.call k) → k.ret ≠ .void
  usesThis : i.UsesThis → m.isStatic = false

def Instr.Basic : Instr → Prop
  | .assign .. | .putField .. | .call _ | .branch .. => True
  | .goto _ | .label _ | .return .. | .invalid _ => False

def Instr.slot? (m : Tac.Method) : Instr → Option Nat
  | .assign (.var x _) _ _ | .assign (.param _ x _) _ _ => (m.slots.get? x).map (·.1)
  | _ => none

end Tac

namespace Jasmin

variable {V W : Type} {J : Interp V W} {lines part : List (Line Opcode)} {L : Locals V}
  {pc n : Nat} {S : List V} {ρ : Store V} {c : Tac.Class} {m : Tac.Method}

theorem Holding.set (hh : Holding m ρ L) {x : String} {i : Nat} {t : ValType}
    (hx : m.slots.get? x = some (i, t)) (v : V) :
    Holding m (ρ.set x v) fun k ↦ if k = i then v else L k := by
  intro y j t' hy
  by_cases hyx : y = x
  · subst hyx
    obtain ⟨rfl, -⟩ := Prod.mk.inj (Option.some.inj (hx.symm.trans hy))
    simp only [if_true, Store.set_self]
  · have hne : j ≠ i := by
      rintro rfl
      exact hyx (Slots.eq_of_get?_eq hy hx)
    simp only [if_neg hne, ρ.set_of_ne v hyx, hh y j t' hy]

theorem Holding.this (hh : Holding m ρ L)
    (hm : m.slots = .ofCode (if m.isStatic then none else some c.name) m.params m.code)
    (hs : m.isStatic = false) : L 0 = ρ "this" := by
  refine hh "this" 0 (.cls c.name) ?_
  rw [hm, hs]
  exact Slots.get?_this c.name m.params m.code

theorem does_loadThis {this : V} (hat : At lines pc [loadThis]) (hthis : L 0 = this) :
    Does J lines L pc [loadThis] S (pure this) (· :: S) := by
  refine .op hat fun w ↦ ?_
  simp only [Opcode.exec, hthis]
  rfl

theorem does_rhs (hh : Holding m ρ L) {this : V} {r : Rhs} (h : rhs c m n r = .ok part)
    (hat : At lines pc part) (hu : (lines.filterMap Line.label?).Nodup)
    (hcall : ∀ k, r = .call k → k.Shaped ∧ k.Binds c ∧ k.ret ≠ .void)
    (hfield : ∀ name t, r = .field name t → L 0 = this)
    (hthis : ∀ cls, .this cls ∈ r.operands.flatMap Operand.parts → L 0 = this) :
    Does J lines L pc part S (r.eval (J.tac c this) ρ) (· :: S) := by
  have hone {x : Operand} (hx : r.operands = [x]) (cls : String) (hc : .this cls ∈ x.parts) :
      L 0 = this := hthis cls (by simpa [hx] using hc)
  have htwo {x y : Operand} (hx : r.operands = [x, y]) (cls : String)
      (hc : .this cls ∈ x.parts ++ y.parts) : L 0 = this := hthis cls (by simpa [hx] using hc)
  cases r with
  | value x => exact does_load hh c h hat (hone rfl)
  | arith op left right =>
    obtain ⟨ls, hl, h⟩ := bind_eq_ok.1 h
    obtain ⟨rs, hr, h⟩ := bind_eq_ok.1 h
    obtain rfl := Except.ok.inj h
    rw [List.append_assoc] at hat ⊢
    refine (does_load hh c hl hat.left fun cls hc ↦ htwo rfl cls ?_).bind fun a ↦ ?_
    · exact List.mem_append_left _ hc
    refine (does_load hh c hr hat.right.left fun cls hc ↦ htwo rfl cls ?_).bind fun b ↦ ?_
    · exact List.mem_append_right _ hc
    exact .op hat.right.right fun w ↦ rfl
  | less left right =>
    obtain ⟨test, ht, h⟩ := bind_eq_ok.1 h
    obtain rfl := Except.ok.inj h
    have htest := decides_jumpLess (J := J) (S := S) (c := c) hh ht hat.left (htwo rfl)
    have hdoes := htest.does_pushBoolean hu hat.right
    simp only [bind_assoc, pure_bind] at hdoes
    exact hdoes
  | not x =>
    obtain ⟨v, hv, h⟩ := bind_eq_ok.1 h
    obtain rfl := Except.ok.inj h
    have htest := Decides.of_does (S := S) (does_load hh c hv hat.left.left (hone rfl))
      hat.left.right J.isZero rfl fun a _ w ↦ rfl
    have hdoes := htest.does_pushBoolean hu hat.right
    simp only [bind_assoc, pure_bind] at hdoes
    exact hdoes
  | field name t =>
    obtain rfl := Except.ok.inj h
    exact (does_loadThis hat.left (hfield name t rfl)).bind fun o ↦ .op hat.right fun w ↦ rfl
  | call k =>
    obtain ⟨hk, hb, hret⟩ := hcall k rfl
    have hdoes := does_call (J := J) (S := S) hh h hat hk hb hthis
    simp only [if_neg hret] at hdoes
    exact hdoes

theorem target?_eq_none (h : lines.filterMap Line.label? = []) (l : String) :
    target? lines l = none := by
  rw [target?, List.findIdx?_eq_none_iff]
  intro x hx
  rw [List.filterMap_eq_nil_iff.1 h x hx]
  rfl

/-- Lines run as an instruction does: they take the stack as it is and leave it so, perform the same
effects, and only change the slot that is assigned. -/
def Runs (J : Interp V W) (m : Tac.Method) (i : Instr) (part : List (Line Opcode)) (S : List V)
    (ρ : Store V) (L : Locals V) (w : W) : Tac.Flow V W → Prop
  | .next ρ' w' => ∃ L', Reaches J part ⟨0, S, L, w⟩ ⟨part.length, S, L', w'⟩ ∧ Holding m ρ' L' ∧
      ∀ k, i.slot? m ≠ some k → L' k = L k
  | .jump l ρ' w' => ρ' = ρ ∧ ∃ b, Reaches J part ⟨0, S, L, w⟩ b ∧ step J part b = .left l S L w'
  | .aborted ρ' w' => ρ' = ρ ∧ Aborts J part ⟨0, S, L, w⟩ w'
  | .returned .. | .stuck => False

section

variable {i : Instr} {I : Tac.Interp V W}

theorem Runs.of_does {α : Type} (act : Effect W α) (hh : Holding m ρ L)
    (h : Does J part L 0 part S act fun _ ↦ S) {w : W}
    (hexec : i.exec I ρ w = .after act ρ w fun _ w' ↦ .next ρ w') :
    Runs J m i part S ρ L w (i.exec I ρ w) := by
  have hrun := h w
  rw [hexec]
  cases hw : act w with
  | done a w' =>
    rw [hw, Nat.zero_add] at hrun
    simp only [Tac.Flow.after, hw]
    exact ⟨L, hrun, hh, fun _ _ ↦ rfl⟩
  | abort w' =>
    rw [hw] at hrun
    simp only [Tac.Flow.after, hw]
    exact ⟨rfl, hrun⟩

theorem Runs.of_store {x : String} {k : Kind} {j : Nat} {t : ValType} {d : Int} (act : Effect W V)
    (hh : Holding m ρ L) (hx : m.slots.get? x = some (j, t)) (hi : i.slot? m = some j)
    (h : Does J (part ++ [.op (.store k j) d]) L 0 part S act (· :: S)) {w : W}
    (hexec : i.exec I ρ w = .after act ρ w fun v w' ↦ .next (ρ.set x v) w') :
    Runs J m i (part ++ [.op (.store k j) d]) S ρ L w (i.exec I ρ w) := by
  have hrun := h w
  rw [hexec]
  cases hw : act w with
  | done v w' =>
    rw [hw, Nat.zero_add] at hrun
    simp only [Tac.Flow.after, hw]
    have hstore := step_eq_run (J := J) (L := L) (S := v :: S) (w := w')
      (At.whole (part ++ [.op (.store k j) d])).right.head rfl
    rw [Nat.zero_add] at hstore
    refine ⟨_, ?_, hh.set hx v, fun k' hk ↦ if_neg ?_⟩
    · rw [List.length_append, List.length_singleton]
      exact Relation.ReflTransGen.tail hrun hstore
    · rintro rfl
      exact hk hi
  | abort w' =>
    rw [hw] at hrun
    simp only [Tac.Flow.after, hw]
    exact ⟨rfl, hrun⟩

theorem after_bind_pure {α β : Type} (x : Effect W α) (g : α → β) (w : W)
    (rest : β → W → Tac.Flow V W) :
    Tac.Flow.after (x >>= fun a ↦ pure (g a)) ρ w rest = .after x ρ w fun a ↦ rest (g a) := by
  simp only [Tac.Flow.after]
  cases hw : x w with
  | done a w' => rw [Effect.bind_done hw, Effect.pure_apply]
  | abort w' => rw [Effect.bind_abort hw]

theorem Runs.of_decides {act : Effect W Bool} {l : String} (hh : Holding m ρ L)
    (h : Decides J part L 0 part S act l) (hl : part.filterMap Line.label? = []) {w : W}
    (hexec : i.exec I ρ w = .after act ρ w fun b w' ↦ if b then .jump l ρ w' else .next ρ w') :
    Runs J m i part S ρ L w (i.exec I ρ w) := by
  have hrun := h w
  rw [hexec]
  cases hw : act w with
  | done b w' =>
    rw [hw] at hrun
    obtain ⟨k, T, o, d, hr, hk, hi, he⟩ := hrun
    simp only [Tac.Flow.after, hw]
    cases b with
    | true => exact ⟨rfl, _, hr, step_eq_left hi he (target?_eq_none hl l)⟩
    | false =>
      have hend : k + 1 = part.length := by rw [hk, Nat.zero_add]
      exact ⟨L, hend ▸ Relation.ReflTransGen.tail hr (step_eq_run hi he), hh, fun _ _ ↦ rfl⟩
  | abort w' =>
    rw [hw] at hrun
    simp only [Tac.Flow.after, hw]
    exact ⟨rfl, hrun⟩

end

end Jasmin

end MiniJava

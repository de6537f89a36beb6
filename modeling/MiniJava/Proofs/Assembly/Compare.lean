import Mathlib.Data.List.Nodup
import MiniJava.Proofs.Assembly.Loads

namespace MiniJava.Jasmin

open Tac

variable {V W α : Type} {J : Interp V W} {lines part test : List (Line Opcode)} {L : Locals V}
  {pc n : Nat} {S : List V} {ρ : Store V} {this : V} {c : Tac.Class} {m : Tac.Method}

theorem target?_eq (hu : (lines.filterMap Line.label?).Nodup) {l : String} {k : Nat}
    (hl : lines[k]? = some (.label l)) : target? lines l = some k := by
  cases ht : target? lines l with
  | none =>
    have hnone := List.findIdx?_eq_none_iff.1 ht _ (List.mem_of_getElem? hl)
    exact absurd hnone (by simp [Line.label?])
  | some j =>
    obtain ⟨hj, hp, -⟩ := List.findIdx?_eq_some_iff_getElem.1 ht
    rw [eq_of_getElem?_of_nodup hu (List.getElem?_eq_getElem hj) hl (by simpa using hp) rfl]

namespace Decides

variable {l : String} {act : Effect W α} {top : α → List V} {o : Opcode} {d : Int}

theorem of_does {x : Effect W Bool} (h : Does J lines L pc part S act top)
    (hat : At lines (pc + part.length) [.op o d]) (g : α → Bool)
    (hx : x = act >>= fun a ↦ pure (g a))
    (he : ∀ a, act.Yields a → ∀ w, o.exec J L w (top a) = .when (g a) l S L w) :
    Decides J lines L pc (part ++ [.op o d]) S x l := by
  intro w
  have hrun := h w
  subst hx
  cases hw : act w with
  | abort w' =>
    rw [hw] at hrun
    rw [Effect.bind_abort hw]
    exact hrun
  | done a w' =>
    rw [hw] at hrun
    rw [Effect.bind_done hw, Effect.pure_apply]
    refine ⟨_, _, o, d, hrun, ?_, hat.head, he a ⟨w, w', hw⟩ w'⟩
    rw [List.length_append, List.length_singleton, Nat.add_assoc]

/-- A test that is followed by its two results leaves its truth on the stack. -/
theorem does_pushBoolean {act : Effect W Bool} (h : Decides J lines L pc test S act (trueLabel n))
    (hu : (lines.filterMap Line.label?).Nodup)
    (hat : At lines (pc + test.length) (pushBoolean n)) :
    Does J lines L pc (test ++ pushBoolean n) S (act >>= fun b ↦ pure (J.ofBool b)) (· :: S) := by
  have hpush (i : Nat) (d : Int) (v : Int32) (hv : -1 ≤ v && v ≤ 5) (w : W)
      (hi : lines[i]? = some (.op (.iconst v) d)) :
      step J lines ⟨i, S, L, w⟩ = .run ⟨i + 1, J.int v.toInt :: S, L, w⟩ :=
    step_eq_run hi (by simp only [Opcode.exec, hv, if_true])
  have hend := hat.tail.tail.tail.tail
  intro w
  have hrun := h w
  cases hw : act w with
  | abort w' =>
    rw [hw] at hrun
    rw [Effect.bind_abort hw]
    exact hrun
  | done b w' =>
    rw [hw] at hrun
    obtain ⟨k, T, o, d, hr, hk, hi, he⟩ := hrun
    rw [Effect.bind_done hw, Effect.pure_apply]
    have hlen : pc + (test ++ pushBoolean n).length = pc + test.length + 1 + 1 + 1 + 1 + 1 := by
      simp [pushBoolean]
      omega
    rw [hlen]
    refine Relation.ReflTransGen.trans hr ?_
    cases b with
    | true =>
      have hone := hpush _ _ 1 (by decide) w' hat.tail.tail.tail.head
      exact .head (step_eq_jump hi he (target?_eq hu hat.tail.tail.head))
        (.head (step_label hat.tail.tail.head) (.head hone (.single (step_label hend.head))))
    | false =>
      have hzero := hpush _ _ 0 (by decide) w' hat.head
      rw [← hk] at hzero hend hat
      have hgoto : step J lines ⟨k + 1 + 1, J.int 0 :: S, L, w'⟩ =
          .run ⟨k + 1 + 1 + 1 + 1 + 1, J.int 0 :: S, L, w'⟩ :=
        step_eq_jump hat.tail.head rfl (target?_eq hu hend.head)
      rw [← hk]
      exact .head (step_eq_run hi he) (.head hzero (.head hgoto (.single (step_label hend.head))))

end Decides

theorem eval_of_literal? {x : Operand} {v : Int32} (h : x.literal? = some v) :
    x.eval (J.tac c this) ρ = pure (J.int v.toInt) := by
  cases x <;> simp_all [Operand.literal?, Operand.eval, Interp.tac]

section

variable (hh : Holding m ρ L)

include hh

/-- Against a literal zero one operand is compared alone, the sense of the test being turned where
the zero stands on the left. -/
theorem decides_jumpLess {left right : Operand} {l : String}
    (h : jumpLess m left right l = .ok part) (hat : At lines pc part)
    (hthis : ∀ cls, .this cls ∈ left.parts ++ right.parts → L 0 = this) :
    Decides J lines L pc part S (do
      let a ← left.eval (J.tac c this) ρ
      let b ← right.eval (J.tac c this) ρ
      return J.less a b) l := by
  have hthisl (cls : String) (hc : .this cls ∈ left.parts) := hthis cls (List.mem_append_left _ hc)
  have hthisr (cls : String) (hc : .this cls ∈ right.parts) :=
    hthis cls (List.mem_append_right _ hc)
  unfold jumpLess at h
  split_ifs at h with hr hl
  · obtain ⟨ls, hls, h⟩ := bind_eq_ok.1 h
    obtain rfl := Except.ok.inj h
    refine .of_does (does_load hh c hls hat.left hthisl) hat.right (J.less · (J.int 0)) ?_
      fun a _ w ↦ rfl
    rw [eval_of_literal? hr]
    rfl
  · obtain ⟨rs, hrs, h⟩ := bind_eq_ok.1 h
    obtain rfl := Except.ok.inj h
    refine .of_does (does_load hh c hrs hat.left hthisr) hat.right (J.less (J.int 0) ·) ?_
      fun a _ w ↦ rfl
    rw [eval_of_literal? hl]
    rfl
  · obtain ⟨ls, hls, h⟩ := bind_eq_ok.1 h
    obtain ⟨rs, hrs, h⟩ := bind_eq_ok.1 h
    obtain rfl := Except.ok.inj h
    have hboth : Does J lines L pc (ls ++ rs) S (do
        let a ← left.eval (J.tac c this) ρ
        let b ← right.eval (J.tac c this) ρ
        return (a, b)) fun p ↦ p.2 :: p.1 :: S :=
      (does_load hh c hls hat.left.left hthisl).bind fun a ↦
        (does_load hh c hrs hat.left.right hthisr).map (fun b ↦ (a, b)) rfl fun _ ↦ rfl
    refine .of_does hboth hat.right (fun p ↦ J.less p.1 p.2) ?_ fun a _ w ↦ rfl
    simp only [bind_assoc, pure_bind]

end

end MiniJava.Jasmin

import MiniJava.Proofs.Lowering.Tracks

namespace MiniJava

open Tac Lower Meaning

variable {V W α β : Type}

/-- Wherever the code that is generated stands, its runs end as a statement does. -/
def Lower.Simulates (I : Interp V W) (s : Scope) (pre : Nat → Store V → Prop) (x : Lower Unit)
    (M : Meaning V W) : Prop :=
  ∀ n code pc, (labelNames code).Nodup → At code pc (x n).code →
    (∀ what, .invalid what ∉ (x n).code) →
    ∀ ρ (st : State V W), s.symbols.Agree ρ st.store → pre n.temp ρ →
      s.Tracks I code pc (pc + (x n).code.length) ρ st.world (M st)

def Tac.Flow.Matches (s : Scope) : Flow V W → Ending V W → Prop
  | .next ρ w, .next st => s.symbols.Agree ρ st.store ∧ w = st.world
  | .returned v ρ w, .returned v' st => v = v' ∧ s.symbols.Agree ρ st.store ∧ w = st.world
  | .aborted ρ w, .aborted st => s.symbols.Agree ρ st.store ∧ w = st.world
  | _, _ => False

namespace Lower.Simulates

variable {I : Interp V W} {s : Scope} {pre : Nat → Store V → Prop}

theorem skip : Simulates I s pre (Pure.pure ()) Meaning.skip := fun _ _ _ _ _ _ ρ _ ha _ ↦
  .single ⟨ρ, .refl _, ha⟩

theorem seq {x y : Lower Unit} {M N : Meaning V W} (hx : Simulates I s pre x M)
    (hy : Simulates I s Anywhere y N) :
    Simulates I s pre (x >>= fun _ ↦ y) (Seq M N) := by
  intro n code pc hu hat hv ρ st ha hp
  rw [bind_apply] at hat hv ⊢
  simp only [List.mem_append, not_or] at hv
  have hfirst := hx n code pc hu hat.left (fun what ↦ (hv what).1) ρ st ha hp
  refine hfirst.seq fun ρ' st' ha' ↦ ?_
  rw [List.length_append, ← Nat.add_assoc]
  exact hy (x n).next code _ hu hat.right (fun what ↦ (hv what).2) ρ' st' ha' trivial

theorem after {x : Lower α} {act : Store V → Effect W β} {post : α → β → Nat → Store V → Prop}
    {f : α → Lower Unit} {M : β → Meaning V W} (hx : ∀ σ, Realizes I s σ pre x (act σ) post)
    (hf : ∀ a b, Simulates I s (post a b) (f a) (M b)) :
    Simulates I s pre (x >>= f) (Meaning.after act M) := by
  intro n code pc hu hat hv ρ st ha hp
  rw [bind_apply] at hat hv ⊢
  simp only [List.mem_append, not_or] at hv
  have hrun := hx st.store n code pc hu hat.left (fun what ↦ (hv what).1) ρ st.world ha hp
  cases hw : act st.store st.world with
  | abort w' =>
    rw [hw] at hrun
    obtain ⟨ρ', hab, hframe⟩ := hrun
    rw [after_abort hw]
    exact .single ⟨ρ', hab, hframe.agree ha⟩
  | done b w' =>
    rw [hw] at hrun
    obtain ⟨ρ', hr, hframe, -, hpost⟩ := hrun
    have hrest := hf (x n).value b (x n).next code _ hu hat.right (fun what ↦ (hv what).2) ρ'
      ⟨st.store, w'⟩ (hframe.agree ha) hpost
    rw [after_done hw, List.length_append, ← Nat.add_assoc]
    exact hrest.prepend hr

theorem emit {i : Instr} {M : Meaning V W} (h : ∀ n ρ (st : State V W), s.symbols.Agree ρ st.store →
    pre n ρ → ∃ o, M st = (fun o' ↦ o' = o) ∧ (i.exec (.ofSource I) ρ st.world).Matches s o) :
    Simulates I s pre (Lower.emit i) M := by
  intro n code pc hu hat hv ρ st ha hp
  obtain ⟨o, hM, hmatch⟩ := h n.temp ρ st ha hp
  have hi := hat.head
  rw [hM]
  refine .single ?_
  cases hf : i.exec (.ofSource I) ρ st.world with
  | next ρ' w' =>
    cases o <;> rw [hf] at hmatch <;> try exact hmatch.elim
    obtain ⟨ha', rfl⟩ := hmatch
    exact ⟨ρ', .one (step_eq_run hi hf), ha'⟩
  | returned v ρ' w' =>
    cases o <;> rw [hf] at hmatch <;> try exact hmatch.elim
    obtain ⟨rfl, ha', rfl⟩ := hmatch
    exact ⟨ρ', ⟨_, .refl _, step_eq_returned hi hf⟩, ha'⟩
  | aborted ρ' w' =>
    cases o <;> rw [hf] at hmatch <;> try exact hmatch.elim
    obtain ⟨ha', rfl⟩ := hmatch
    exact ⟨ρ', ⟨_, .refl _, step_eq_aborted hi hf⟩, ha'⟩
  | jump l ρ' w' => rw [hf] at hmatch; exact hmatch.elim
  | stuck => rw [hf] at hmatch; exact hmatch.elim

theorem of_realizes {x : Lower Unit} {act : Store V → Effect W β}
    (hx : ∀ σ, Realizes I s σ pre x (act σ) fun _ _ _ _ ↦ True) :
    Simulates I s pre x (Meaning.after act fun _ ↦ Meaning.skip) := by
  have hskip := after hx (f := fun _ ↦ Pure.pure ()) (M := fun _ ↦ Meaning.skip) fun _ _ ↦ skip
  rwa [bind_pure_unit] at hskip

theorem unsupported {what : String} {p : Position} {M : Meaning V W} :
    Simulates I s pre (Lower.unsupported what p) M := fun _ _ _ _ _ hv ↦
  absurd (List.mem_singleton_self _) (hv what)

end Lower.Simulates

namespace Scope

variable {I : Interp V W} {s : Scope} {σ : Store V}

@[simp] theorem eval_unparen (e : Expr) : s.eval I σ e.unparen = s.eval I σ e := by
  induction e using Expr.children_induction with
  | step e ih =>
    cases e with
    | paren inner pos => exact ih inner (by simp [Expr.children])
    | _ => rfl

def readyCond (I : Interp V W) (s : Scope) (σ : Store V) (cond : Expr) : Effect W (Effect W V) :=
  match cond.unparen with
  | .binary .less left right _ => do
    let l ← s.eval I σ left
    let r ← s.eval I σ right
    return I.less l r
  | _ => do
    let v ← s.eval I σ cond
    return (return v)

theorem eval_cond (cond : Expr) : s.eval I σ cond = s.readyCond I σ cond >>= id := by
  unfold readyCond
  split
  · next left right pos h =>
    rw [← eval_unparen, h, eval]
    simp only [bind_assoc, pure_bind, id]
  · simp only [bind_assoc, pure_bind, id, bind_pure]

theorem lowerCond_of_ne_less {cond : Expr}
    (h : ∀ left right pos, cond.unparen ≠ .binary .less left right pos) :
    s.lowerCond cond = do return .value (← s.lower cond (some .bool)) := by
  unfold lowerCond
  split
  · next left right pos he => exact absurd he (h left right pos)
  · rfl

theorem readyCond_of_ne_less {cond : Expr}
    (h : ∀ left right pos, cond.unparen ≠ .binary .less left right pos) :
    s.readyCond I σ cond = do
      let v ← s.eval I σ cond
      return (return v) := by
  unfold readyCond
  split
  · next left right pos he => exact absurd he (h left right pos)
  · rfl

theorem realizes_lowerCond (hs : s.Own) {cond : Expr} (hc : cond.Everywhere Expr.Countable) :
    Realizes I s σ Anywhere (s.lowerCond cond) (s.readyCond I σ cond)
      fun c call _ ρ ↦ c.eval (.ofSource I) ρ = call := by
  by_cases hless : ∃ left right pos, cond.unparen = .binary .less left right pos
  · obtain ⟨left, right, pos, h⟩ := hless
    have hin := (h ▸ hc.unparen).inside
    simp only [lowerCond, readyCond, h]
    refine (realizes_lower hs (hin left (by simp [Expr.children])) _).bind fun a u ↦ ?_
    have hright := realizes_lower (I := I) (σ := σ) hs (hin right (by simp [Expr.children]))
      (some .int)
    refine (hright.keep (Holds.stable a u)).bind fun b v ↦ .pure fun n ρ _ hp ↦ ?_
    simp only [Cond.eval, hp.1.eval_eq, hp.2.eval_eq, pure_bind]
    rfl
  · have hne (left right : Expr) (pos : Position) : cond.unparen ≠ .binary .less left right pos :=
      fun h ↦ hless ⟨left, right, pos, h⟩
    rw [lowerCond_of_ne_less hne, readyCond_of_ne_less hne]
    exact (realizes_lower hs hc _).bind fun a v ↦ .pure fun _ _ _ hp ↦ hp.eval_eq

/-- The code of a condition with the branch behind it decides between two places. -/
theorem decides_lowerCond (hs : s.Own) {cond : Expr} (hc : cond.Everywhere Expr.Countable)
    {n : Numbering} {code rest : List Instr} {pc k : Nat} {l : String}
    (hu : (labelNames code).Nodup)
    (hat : At code pc ((s.lowerCond cond n).code ++ .branch (s.lowerCond cond n).value l :: rest))
    (hv : ∀ what, .invalid what ∉ (s.lowerCond cond n).code) (hl : code[k]? = some (.label l))
    {ρ : Store V} (ha : s.symbols.Agree ρ σ) (w : W) :
    s.Decides I code pc k (pc + (s.lowerCond cond n).code.length + 1) ρ σ w
      (s.eval I σ cond w) := by
  have hrun := realizes_lowerCond (I := I) hs hc n code pc hu hat.left hv ρ w ha trivial
  rw [eval_cond]
  cases hw : s.readyCond I σ cond w with
  | abort w' =>
    rw [hw] at hrun
    obtain ⟨ρ', hab, hframe⟩ := hrun
    rw [Effect.bind_abort hw]
    exact ⟨ρ', hab, hframe.agree ha⟩
  | done call w₁ =>
    rw [hw] at hrun
    obtain ⟨ρ₁, ⟨m, hm⟩, hframe, -, heval⟩ := hrun
    have ha₁ := hframe.agree ha
    rw [Effect.bind_done hw]
    simp only [id]
    have hi := hat.right.head
    have hcall := congrFun heval w₁
    cases hw₁ : call w₁ with
    | abort w₂ =>
      rw [hw₁] at hcall
      have hexec : (Instr.branch (s.lowerCond cond n).value l).exec (.ofSource I) ρ₁ w₁ =
          .aborted ρ₁ w₂ := by simp only [Instr.exec, Flow.after, hcall]
      exact ⟨ρ₁, ⟨_, ⟨m, hm⟩, step_eq_aborted hi hexec⟩, ha₁⟩
    | done v w₂ =>
      rw [hw₁] at hcall
      cases hb : I.isTrue v with
      | true =>
        have hjump := step_eq_jump hu hi (exec_branch_true hcall hb) hl
        exact ⟨m, ρ₁, by simpa only [hb, if_true] using hm.trans (.one hjump), ha₁⟩
      | false =>
        have hnext := step_eq_run hi (exec_branch_false hcall hb)
        exact ⟨m, ρ₁, by simpa only [hb, Bool.false_eq_true, if_false] using hm.trans (.one hnext),
          ha₁⟩

end Scope

end MiniJava

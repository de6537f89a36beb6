import MiniJava.Proofs.Lowering.Blocks
import MiniJava.Proofs.Lowering.Frame

namespace MiniJava

open Tac Lower

variable {V W α β γ δ : Type}

/-- A run of the code from `pc` on has the outcome of an effect. Where it does not abort it comes to
the end of the code; it only changes temporaries from `n` on. -/
def Scope.Follows (s : Scope) (I : Interp V W) (code : List Instr) (pc len n : Nat) (ρ : Store V)
    (w : W) (post : β → Store V → Prop) : Outcome W β → Prop
  | .done b w' => ∃ ρ', Reaches (.ofSource I) code ⟨pc, ρ, w⟩ ⟨pc + len, ρ', w'⟩ ∧
      s.Frame n ρ ρ' ∧ post b ρ'
  | .abort w' => ∃ ρ', Aborts (.ofSource I) code ⟨pc, ρ, w⟩ ρ' w' ∧ s.Frame n ρ ρ'

/-- Wherever the code that is generated stands, it does what an effect does. The variables that the
effect is about are those of `σ`. -/
def Lower.Realizes (I : Interp V W) (s : Scope) (σ : Store V) (pre : Nat → Store V → Prop)
    (x : Lower α) (act : Effect W β) (post : α → β → Nat → Store V → Prop) : Prop :=
  ∀ n code pc, (labelNames code).Nodup → At code pc (x n).code →
    (∀ what, .invalid what ∉ (x n).code) →
    ∀ ρ w, s.symbols.Agree ρ σ → pre n.temp ρ →
      s.Follows I code pc (x n).code.length n.temp ρ w
        (fun b ρ' ↦ n.temp ≤ (x n).next.temp ∧ post (x n).value b (x n).next.temp ρ') (act w)

def Anywhere : Nat → Store V → Prop := fun _ _ ↦ True

section

variable {I : Interp V W} {s : Scope} {code : List Instr} {pc len len' n n' : Nat}
  {ρ ρ' : Store V} {w w' : W} {post : β → Store V → Prop} {o : Outcome W β}

theorem Scope.Follows.mono {post' : β → Store V → Prop}
    (h : s.Follows I code pc len n ρ w post o)
    (hp : ∀ b ρ', s.Frame n ρ ρ' → post b ρ' → post' b ρ') :
    s.Follows I code pc len n ρ w post' o := by
  cases o with
  | done b w' =>
    obtain ⟨ρ', hr, hf, hb⟩ := h
    exact ⟨ρ', hr, hf, hp b ρ' hf hb⟩
  | abort w' => exact h

theorem Scope.Follows.prepend {pc' : Nat} (hr : Reaches (.ofSource I) code ⟨pc, ρ, w⟩ ⟨pc', ρ', w'⟩)
    (hf : s.Frame n ρ ρ') (hn : n ≤ n') (h : s.Follows I code pc' len' n' ρ' w' post o)
    (hpc : pc' + len' = pc + len) : s.Follows I code pc len n ρ w post o := by
  cases o with
  | done b w'' =>
    obtain ⟨ρ'', hr', hf', hb⟩ := h
    exact ⟨ρ'', hpc ▸ hr.trans hr', hf.trans hf' hn, hb⟩
  | abort w'' =>
    obtain ⟨ρ'', ha, hf'⟩ := h
    exact ⟨ρ'', hr.aborts ha, hf.trans hf' hn⟩

theorem Scope.Follows.of_reaches (h : s.Follows I code 0 code.length n ρ w post o)
    (hr : Reaches (.ofSource I) code ⟨0, ρ, w⟩ ⟨code.length, ρ', w'⟩) :
    ∃ b, o = .done b w' ∧ s.Frame n ρ ρ' ∧ post b ρ' := by
  have hend (ρ₁ : Store V) (w₁ : W) : step (.ofSource I) code ⟨code.length, ρ₁, w₁⟩ = .stuck :=
    step_of_length_le (Nat.le_refl _)
  cases o with
  | done b w₁ =>
    obtain ⟨ρ₁, hr₁, hf, hb⟩ := h
    rw [Nat.zero_add] at hr₁
    have heq := hr₁.eq_of_final hr (by simp [hend]) (by simp [hend])
    obtain ⟨-, rfl, rfl⟩ := Config.mk.injEq .. ▸ heq
    exact ⟨b, rfl, hf, hb⟩
  | abort w₁ =>
    obtain ⟨ρ₁, ⟨c, hc, habort⟩, -⟩ := h
    obtain rfl := hc.eq_of_final hr (by simp [habort]) (by simp [hend])
    exact absurd (habort.symm.trans (hend ..)) nofun

theorem Scope.Follows.of_aborts (h : s.Follows I code 0 code.length n ρ w post o)
    (ha : Aborts (.ofSource I) code ⟨0, ρ, w⟩ ρ' w') : o = .abort w' ∧ s.Frame n ρ ρ' := by
  obtain ⟨c, hc, habort⟩ := ha
  cases o with
  | done b w₁ =>
    obtain ⟨ρ₁, hr₁, -, -⟩ := h
    rw [Nat.zero_add] at hr₁
    have hend : step (.ofSource I) code ⟨code.length, ρ₁, w₁⟩ = .stuck :=
      step_of_length_le (Nat.le_refl _)
    obtain rfl := hr₁.eq_of_final hc (by simp [hend]) (by simp [habort])
    exact absurd (habort.symm.trans hend) nofun
  | abort w₁ =>
    obtain ⟨ρ₁, ⟨c₁, hc₁, habort₁⟩, hf⟩ := h
    obtain rfl := hc₁.eq_of_final hc (by simp [habort₁]) (by simp [habort])
    rw [habort₁, Step.aborted.injEq] at habort
    obtain ⟨rfl, rfl⟩ := habort
    exact ⟨rfl, hf⟩

end

namespace Lower.Realizes

variable {I : Interp V W} {s : Scope} {σ : Store V} {pre : Nat → Store V → Prop}
  {x : Lower α} {act : Effect W β} {post : α → β → Nat → Store V → Prop}

theorem pure {a : α} {b : β}
    (h : ∀ n ρ, s.symbols.Agree ρ σ → pre n ρ → post a b n ρ) :
    Realizes I s σ pre (Pure.pure a) (Pure.pure b) post := fun _ _ _ _ _ _ ρ _ ha hp ↦
  ⟨ρ, .refl _, .refl _ _, Nat.le_refl _, h _ ρ ha hp⟩

theorem mono {pre' : Nat → Store V → Prop} {post' : α → β → Nat → Store V → Prop}
    (h : Realizes I s σ pre x act post) (hpre : ∀ n ρ, pre' n ρ → pre n ρ)
    (hpost : ∀ a b n ρ, post a b n ρ → post' a b n ρ) :
    Realizes I s σ pre' x act post' := fun n code pc hu hat hv ρ w ha hp ↦
  (h n code pc hu hat hv ρ w ha (hpre _ _ hp)).mono fun _ _ _ hb ↦ ⟨hb.1, hpost _ _ _ _ hb.2⟩

theorem drop (h : Realizes I s σ pre x act post) :
    Realizes I s σ pre x act fun _ _ _ _ ↦ True :=
  h.mono (fun _ _ hp ↦ hp) fun _ _ _ _ _ ↦ trivial

theorem keep {R : Nat → Store V → Prop} (h : Realizes I s σ Anywhere x act post)
    (hR : s.Stable R) :
    Realizes I s σ R x act fun a b n ρ ↦ R n ρ ∧ post a b n ρ :=
  fun n code pc hu hat hv ρ w ha hp ↦
    (h n code pc hu hat hv ρ w ha trivial).mono fun _ _ hf hb ↦ ⟨hb.1, hR hb.1 hf hp, hb.2⟩

theorem bind {f : α → Lower γ} {g : β → Effect W δ} {post' : γ → δ → Nat → Store V → Prop}
    (hx : Realizes I s σ pre x act post)
    (hf : ∀ a b, Realizes I s σ (post a b) (f a) (g b) post') :
    Realizes I s σ pre (x >>= f) (act >>= g) post' := by
  intro n code pc hu hat hv ρ w ha hp
  rw [bind_apply] at hat hv ⊢
  simp only [List.mem_append, not_or] at hv
  have hrun := hx n code pc hu hat.left (fun what ↦ (hv what).1) ρ w ha hp
  cases hw : act w with
  | abort w' =>
    rw [hw] at hrun
    rw [Effect.bind_abort hw]
    exact hrun
  | done b w' =>
    rw [hw] at hrun
    obtain ⟨ρ', hr, hframe, hn, hpost⟩ := hrun
    rw [Effect.bind_done hw, List.length_append]
    have hrest := hf (x n).value b (x n).next code _ hu hat.right (fun what ↦ (hv what).2) ρ' w'
      (hframe.agree ha) hpost
    exact (hrest.prepend hr hframe hn (Nat.add_assoc ..)).mono fun _ _ _ h ↦
      ⟨Nat.le_trans hn h.1, h.2⟩

theorem emit {i : Instr}
    (h : ∀ n ρ w, s.symbols.Agree ρ σ → pre n ρ →
      i.exec (.ofSource I) ρ w = .after act ρ w fun _ w' ↦ .next ρ w') :
    Realizes I s σ pre (Lower.emit i) act fun _ _ ↦ pre := by
  intro n code pc hu hat hv ρ w ha hp
  have hi := hat.head
  have hexec := h _ ρ w ha hp
  cases hw : act w with
  | done b w' =>
    simp only [Flow.after, hw] at hexec
    exact ⟨ρ, .one (step_eq_run hi hexec), .refl _ _, Nat.le_refl _, hp⟩
  | abort w' =>
    simp only [Flow.after, hw] at hexec
    exact ⟨ρ, ⟨_, .refl _, step_eq_aborted hi hexec⟩, .refl _ _⟩

theorem unsupported_bind {what : String} {pos : Position} {f : Unit → Lower α} :
    Realizes I s σ pre (Lower.unsupported what pos >>= f) act post := fun _ _ _ _ _ hv ↦
  absurd (List.mem_cons_self ..) (hv what)

end Lower.Realizes

namespace Scope

variable {I : Interp V W} {s : Scope} {σ : Store V} {pre : Nat → Store V → Prop}
  {act : Effect W V}

theorem realizes_assignFresh {stem : String} (hs : stem ∈ tempStems) {ty : ValType} {rhs : Rhs}
    (h : ∀ n ρ, s.symbols.Agree ρ σ → pre n ρ → rhs.eval (.ofSource I) ρ = act) :
    Realizes I s σ pre (s.assignFresh stem ty rhs) act (Holds I s) := by
  intro n code pc hu hat hv ρ w ha hp
  let k := freshNumber s.symbols.declaredNames stem n.temp
  let x := numbered stem k
  have hle : n.temp ≤ k := le_freshNumber ..
  have hi : code[pc]? = some (.assign (.var x ty) ty rhs) := hat.head
  have hlater : s.LaterTemp n.temp x := laterTemp_fresh hs n.temp
  have heval := h n.temp ρ ha hp
  cases hw : act w with
  | done v w' =>
    have hexec : (Instr.assign (.var x ty) ty rhs).exec (.ofSource I) ρ w =
        .next (ρ.set x v) w' := by
      simp only [Instr.exec, Flow.after, heval, hw]
    refine ⟨ρ.set x v, .one (step_eq_run hi hexec), .set hlater ρ v, Nat.le_succ_of_le hle,
      not_laterTemp_numbered hs (Nat.lt_succ_self k), ?_⟩
    exact congrArg _ (ρ.set_self x v)
  | abort w' =>
    have hexec : (Instr.assign (.var x ty) ty rhs).exec (.ofSource I) ρ w = .aborted ρ w' := by
      simp only [Instr.exec, Flow.after, heval, hw]
    exact ⟨ρ, ⟨_, .refl _, step_eq_aborted hi hexec⟩, .refl _ _⟩

theorem realizes_toTemp {ty : ValType} {rhs : Rhs}
    (h : ∀ n ρ, s.symbols.Agree ρ σ → pre n ρ → rhs.eval (.ofSource I) ρ = act) :
    Realizes I s σ pre (s.toTemp ty rhs) act (Holds I s) :=
  s.toTemp_eq_assignFresh ty rhs ▸ realizes_assignFresh (by decide) h

end Scope

end MiniJava

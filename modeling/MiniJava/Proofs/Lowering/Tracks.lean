import MiniJava.Proofs.Lowering.ExprMeaning

namespace MiniJava

open Tac Lower Meaning

variable {V W : Type}

namespace Scope

variable (s : Scope) (I : Interp V W) (code : List Instr)

def Ends (pc exit : Nat) (ρ : Store V) (w : W) : Ending V W → Prop
  | .next st => ∃ ρ', Reaches (.ofSource I) code ⟨pc, ρ, w⟩ ⟨exit, ρ', st.world⟩ ∧
      s.symbols.Agree ρ' st.store
  | .returned v st => ∃ ρ', Returns (.ofSource I) code ⟨pc, ρ, w⟩ v ρ' st.world ∧
      s.symbols.Agree ρ' st.store
  | .aborted st => ∃ ρ', Aborts (.ofSource I) code ⟨pc, ρ, w⟩ ρ' st.world ∧
      s.symbols.Agree ρ' st.store

/-- A run of the code ends in all of the given ways, and runs forever where there is none. -/
structure Tracks (pc exit : Nat) (ρ : Store V) (w : W) (endings : Ending V W → Prop) : Prop where
  ends : ∀ o, endings o → s.Ends I code pc exit ρ w o
  endless : (∀ o, ¬ endings o) → Endless (.ofSource I) code ⟨pc, ρ, w⟩

def Decides (pc yes no : Nat) (ρ σ : Store V) (w : W) : Outcome W V → Prop
  | .done v w' => ∃ n ρ', Run (.ofSource I) code (n + 1) ⟨pc, ρ, w⟩
      ⟨if I.isTrue v then yes else no, ρ', w'⟩ ∧ s.symbols.Agree ρ' σ
  | .abort w' => ∃ ρ', Aborts (.ofSource I) code ⟨pc, ρ, w⟩ ρ' w' ∧ s.symbols.Agree ρ' σ

end Scope

section

variable {s : Scope} {I : Interp V W} {code : List Instr} {pc pc' exit exit' yes no yes' no' : Nat}
  {ρ ρ' σ : Store V} {w w' : W} {endings : Ending V W → Prop} {o : Ending V W} {st : State V W}

namespace Scope

theorem Ends.prepend (hr : Reaches (.ofSource I) code ⟨pc, ρ, w⟩ ⟨pc', ρ', w'⟩)
    (h : s.Ends I code pc' exit ρ' w' o) : s.Ends I code pc exit ρ w o := by
  cases o with
  | next st =>
    obtain ⟨ρ₁, h, ha⟩ := h
    exact ⟨ρ₁, hr.trans h, ha⟩
  | returned v st =>
    obtain ⟨ρ₁, h, ha⟩ := h
    exact ⟨ρ₁, hr.returns h, ha⟩
  | aborted st =>
    obtain ⟨ρ₁, h, ha⟩ := h
    exact ⟨ρ₁, hr.aborts h, ha⟩

theorem Ends.of_halts (h : s.Ends I code pc exit ρ w o) (ho : o.Halts) :
    s.Ends I code pc exit' ρ w o := by
  cases o with
  | next st => exact ho.elim
  | returned v st => exact h
  | aborted st => exact h

theorem Tracks.single (h : s.Ends I code pc exit ρ w o) :
    s.Tracks I code pc exit ρ w fun o' ↦ o' = o where
  ends := by
    rintro _ rfl
    exact h
  endless hn := absurd rfl (hn o)

theorem Tracks.exists_ending (h : s.Tracks I code pc exit ρ w endings) {a : Config V W}
    (hr : Reaches (.ofSource I) code ⟨pc, ρ, w⟩ a) (ha : ∀ b, step (.ofSource I) code a ≠ .run b) :
    ∃ o, endings o := by
  by_contra hn
  exact (h.endless fun o ho ↦ hn ⟨o, ho⟩).not_final hr ha

theorem Tracks.prepend (hr : Reaches (.ofSource I) code ⟨pc, ρ, w⟩ ⟨pc', ρ', w'⟩)
    (h : s.Tracks I code pc' exit ρ' w' endings) : s.Tracks I code pc exit ρ w endings where
  ends o ho := (h.ends o ho).prepend hr
  endless hn := hr.endless (h.endless hn)

theorem Tracks.extend (h : s.Tracks I code pc exit ρ w endings)
    (hr : ∀ ρ' w', Reaches (.ofSource I) code ⟨exit, ρ', w'⟩ ⟨exit', ρ', w'⟩) :
    s.Tracks I code pc exit' ρ w endings where
  ends o ho := by
    have hends := h.ends o ho
    cases o with
    | next st =>
      obtain ⟨ρ', hr', ha⟩ := hends
      exact ⟨ρ', hr'.trans (hr ρ' st.world), ha⟩
    | returned v st => exact hends
    | aborted st => exact hends
  endless := h.endless

theorem Tracks.to_exit (h : s.Tracks I code pc exit ρ w endings) (he : exit = exit') :
    s.Tracks I code pc exit' ρ w endings := he ▸ h

theorem Tracks.seq {first rest : Meaning V W} (h : s.Tracks I code pc pc' ρ st.world (first st))
    (h' : ∀ ρ' st', s.symbols.Agree ρ' st'.store →
      s.Tracks I code pc' exit ρ' st'.world (rest st')) :
    s.Tracks I code pc exit ρ st.world (Seq first rest st) where
  ends o ho := by
    cases ho with
    | next hfirst hrest =>
      obtain ⟨ρ', hr, ha⟩ := h.ends _ hfirst
      exact ((h' ρ' _ ha).ends o hrest).prepend hr
    | halt hfirst ho => exact (h.ends o hfirst).of_halts ho
  endless hn := by
    by_cases hfirst : ∃ o, first st o
    · obtain ⟨o, hfirst⟩ := hfirst
      cases o with
      | next st' =>
        obtain ⟨ρ', hr, ha⟩ := h.ends _ hfirst
        exact hr.endless ((h' ρ' st' ha).endless fun o ho ↦ hn o (.next hfirst ho))
      | returned v st' => exact absurd (.halt hfirst trivial) (hn _)
      | aborted st' => exact absurd (.halt hfirst trivial) (hn _)
    · exact h.endless fun o ho ↦ hfirst ⟨o, ho⟩

theorem Decides.extend {x : Outcome W V} (h : s.Decides I code pc yes no ρ σ w x)
    (hyes : ∀ ρ' w', Reaches (.ofSource I) code ⟨yes, ρ', w'⟩ ⟨yes', ρ', w'⟩)
    (hno : ∀ ρ' w', Reaches (.ofSource I) code ⟨no, ρ', w'⟩ ⟨no', ρ', w'⟩) :
    s.Decides I code pc yes' no' ρ σ w x := by
  cases x with
  | abort w' => exact h
  | done v w' =>
    obtain ⟨n, ρ', hr, ha⟩ := h
    have hgo : Reaches (.ofSource I) code ⟨if I.isTrue v then yes else no, ρ', w'⟩
        ⟨if I.isTrue v then yes' else no', ρ', w'⟩ := by
      split
      · exact hyes ρ' w'
      · exact hno ρ' w'
    obtain ⟨k, hk⟩ := hgo
    refine ⟨n + k, ρ', ?_, ha⟩
    rw [Nat.add_right_comm]
    exact hr.trans hk

theorem Decides.aborts {x : Outcome W V} (h : s.Decides I code pc yes no ρ σ w x)
    (hx : x = .abort w') : s.Ends I code pc exit ρ w (.aborted ⟨σ, w'⟩) := by
  subst hx
  exact h

theorem Decides.run {x : Outcome W V} {v : V} {b : Bool}
    (h : s.Decides I code pc yes no ρ σ w x) (hx : x = .done v w') (hv : I.isTrue v = b) :
    ∃ n ρ', Run (.ofSource I) code (n + 1) ⟨pc, ρ, w⟩ ⟨if b then yes else no, ρ', w'⟩ ∧
      s.symbols.Agree ρ' σ := by
  subst hx hv
  exact h

theorem Tracks.decide {cond : Store V → Effect W V} {M N : Meaning V W}
    (h : s.Decides I code pc yes no ρ st.store st.world (cond st.store st.world))
    (hyes : ∀ ρ' w', s.symbols.Agree ρ' st.store →
      s.Tracks I code yes exit ρ' w' (M ⟨st.store, w'⟩))
    (hno : ∀ ρ' w', s.symbols.Agree ρ' st.store →
      s.Tracks I code no exit ρ' w' (N ⟨st.store, w'⟩)) :
    s.Tracks I code pc exit ρ st.world
      (after cond (fun v ↦ if I.isTrue v then M else N) st) := by
  cases hc : cond st.store st.world with
  | abort w' =>
    rw [after_abort hc]
    exact .single (h.aborts hc)
  | done v w' =>
    rw [after_done hc]
    cases hv : I.isTrue v with
    | true =>
      obtain ⟨n, ρ', hr, ha⟩ := h.run hc hv
      simp only [if_true] at hr ⊢
      exact (hyes ρ' w' ha).prepend ⟨_, hr⟩
    | false =>
      obtain ⟨n, ρ', hr, ha⟩ := h.run hc hv
      simp only [Bool.false_eq_true, if_false] at hr ⊢
      exact (hno ρ' w' ha).prepend ⟨_, hr⟩

/-- Code that repeats its body may be entered at any place where its condition is decided. Every
round takes a step, so a loop without an ending does not stay in one round. -/
theorem Tracks.loop {cond : Store V → Effect W V} {body : Meaning V W} {entry again start : Nat}
    (hentry : s.Decides I code entry start exit ρ st.store st.world (cond st.store st.world))
    (hagain : ∀ ρ (st : State V W), s.symbols.Agree ρ st.store →
      s.Decides I code again start exit ρ st.store st.world (cond st.store st.world))
    (hbody : ∀ ρ (st : State V W), s.symbols.Agree ρ st.store →
      s.Tracks I code start again ρ st.world (body st)) :
    s.Tracks I code entry exit ρ st.world (Loop I cond body st) where
  ends o ho := by
    -- By induction on the rounds; each leads back to where the condition is decided again.
    induction ho generalizing entry ρ with
    | abort hc => exact hentry.aborts hc
    | stop hc hv =>
      obtain ⟨n, ρ', hr, ha⟩ := hentry.run hc hv
      exact ⟨ρ', ⟨_, hr⟩, ha⟩
    | @again st st' v w' o hc hv hb _ ih =>
      obtain ⟨n, ρ₁, hr₁, ha₁⟩ := hentry.run hc hv
      obtain ⟨ρ₂, hr₂, ha₂⟩ := (hbody ρ₁ ⟨st.store, w'⟩ ha₁).ends _ hb
      exact (ih (hagain ρ₂ _ ha₂)).prepend (Reaches.trans ⟨_, hr₁⟩ hr₂)
    | @halt st v w' o hc hv hb ho =>
      obtain ⟨n, ρ₁, hr₁, ha₁⟩ := hentry.run hc hv
      exact (((hbody ρ₁ ⟨st.store, w'⟩ ha₁).ends _ hb).of_halts ho).prepend ⟨_, hr₁⟩
  endless hn := by
    intro k
    induction k generalizing entry ρ st with
    | zero => exact ⟨_, .zero _⟩
    | succ k ih =>
      cases hc : cond st.store st.world with
      | abort w' => exact absurd (.abort hc) (hn _)
      | done v w' =>
        cases hv : I.isTrue v with
        | false => exact absurd (.stop hc hv) (hn _)
        | true =>
          obtain ⟨n, ρ₁, hr₁, ha₁⟩ := hentry.run hc hv
          have htracks := hbody ρ₁ ⟨st.store, w'⟩ ha₁
          -- Either the body comes back and the loop has no ending from there, or it runs on itself.
          have hrest : ∃ b, Run (.ofSource I) code k ⟨start, ρ₁, w'⟩ b := by
            by_cases hends : ∃ o, body ⟨st.store, w'⟩ o
            · obtain ⟨o, ho⟩ := hends
              cases o with
              | next st' =>
                obtain ⟨ρ₂, ⟨j, hr₂⟩, ha₂⟩ := htracks.ends _ ho
                obtain ⟨b, hb⟩ := ih (hagain ρ₂ st' ha₂) fun o hl ↦ hn o (.again hc hv ho hl)
                exact (hr₂.trans hb).take (Nat.le_add_left k j)
              | returned v' st' => exact absurd (.halt hc hv ho trivial) (hn _)
              | aborted st' => exact absurd (.halt hc hv ho trivial) (hn _)
            · exact htracks.endless (fun o ho ↦ hends ⟨o, ho⟩) k
          obtain ⟨b, hb⟩ := hrest
          exact (hr₁.trans hb).take (by omega)

end Scope

end

end MiniJava

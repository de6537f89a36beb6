import MiniJava.Proofs.Assembly.Runs

namespace MiniJava.Jasmin

open Tac

variable {V W : Type} {J : Interp V W} {c : Tac.Class} {m : Tac.Method} {n : Nat}
  {part : List (Line Opcode)} {ρ : Store V} {L : Locals V} {S : List V} {w : W} {i : Instr}

section

variable (hh : Holding m ρ L)

include hh

theorem runs_putField {name : String} {t : ValType} {x : Operand}
    (h : (instr c m n (.putField name t x)).1 = .ok part) (hthis : L 0 = ρ "this") :
    Runs J m (.putField name t x) part S ρ L w
      ((Instr.putField name t x).exec (J.tac c (ρ "this")) ρ w) := by
  obtain ⟨v, hv, h⟩ := bind_eq_ok.1 h
  obtain rfl := Except.ok.inj h
  have hat := At.whole ([loadThis] ++ (v ++ [.op (.putfield c.name name (c.jtype t)) (-2)]))
  refine .of_does (do
    let o ← pure (ρ "this")
    let u ← x.eval (J.tac c (ρ "this")) ρ
    J.putfield c.name name (c.jtype t) o u) hh ?_ rfl
  refine (does_loadThis hat.left hthis).bind fun o ↦ ?_
  refine (does_load hh c hv hat.right.left fun _ _ ↦ hthis).bind fun u ↦ ?_
  exact .op hat.right.right fun w ↦ rfl

theorem runs_call {k : Call} (h : (instr c m n (.call k)).1 = .ok part) (hk : k.Shaped)
    (hb : k.Binds c)
    (hthis : ∀ cls, .this cls ∈ (Instr.call k).mentions → L 0 = ρ "this") :
    Runs J m (.call k) part S ρ L w ((Instr.call k).exec (J.tac c (ρ "this")) ρ w) := by
  obtain ⟨v, hv, h⟩ := bind_eq_ok.1 h
  obtain rfl := Except.ok.inj h
  have hat := At.whole (v ++ if k.ret = .void then [] else [.op .pop (-1)])
  have hcall := does_call (J := J) (S := S) hh hv hat.left hk hb hthis
  refine .of_does (k.eval (J.tac c (ρ "this")) ρ) hh ?_ rfl
  rw [← bind_pure (k.eval (J.tac c (ρ "this")) ρ)]
  refine hcall.bind fun u ↦ ?_
  by_cases hret : k.ret = .void
  · simp only [if_pos hret]
    exact .nil rfl
  · simp only [if_neg hret] at hat ⊢
    exact .op hat.right fun w ↦ rfl

theorem runs_branch {cond : Cond} {l : String} (h : (instr c m n (.branch cond l)).1 = .ok part)
    (hthis : ∀ cls, .this cls ∈ (Instr.branch cond l).mentions → L 0 = ρ "this") :
    Runs J m (.branch cond l) part S ρ L w
      ((Instr.branch cond l).exec (J.tac c (ρ "this")) ρ w) := by
  have hnone : part.filterMap Line.label? = [] := by
    have hlabels := labels_instr h
    cases cond <;> simpa [instr, Instr.label?] using hlabels
  have hat : At part 0 part := .whole part
  cases cond with
  | value x =>
    obtain ⟨v, hv, h⟩ := bind_eq_ok.1 h
    obtain rfl := Except.ok.inj h
    have hload := does_load (J := J) (S := S) hh c hv hat.left fun cls hc ↦ hthis cls (by
      simpa [Instr.mentions, Instr.operands, Cond.operands] using hc)
    have htest := Decides.of_does (l := l) hload hat.right (!J.isZero ·) rfl fun a _ w ↦ rfl
    refine .of_decides hh htest hnone ?_
    rw [after_bind_pure]
    rfl
  | less left right =>
    have htest := decides_jumpLess (J := J) (S := S) (c := c) hh h hat fun cls hc ↦
      hthis cls (by simpa [Instr.mentions, Instr.operands, Cond.operands] using hc)
    have hcond : Cond.eval (J.tac c (ρ "this")) ρ (.less left right) = (do
        let a ← left.eval (J.tac c (ρ "this")) ρ
        let b ← right.eval (J.tac c (ρ "this")) ρ
        return J.less a b) >>= fun b ↦ pure (J.ofBool b) := by
      simp only [bind_assoc, pure_bind]
      rfl
    refine .of_decides hh htest hnone ?_
    simp only [Instr.exec, hcond, after_bind_pure, J.isTrue_ofBool]

end

theorem nodup_labels_assign {dest : Operand} {t : ValType} {r : Rhs}
    (h : (instr c m n (.assign dest t r)).1 = .ok part) : (part.filterMap Line.label?).Nodup := by
  rw [labels_instr h]
  by_cases hn : (instr c m n (.assign dest t r)).2 = n
  · rw [if_pos hn]
    exact List.nodup_nil
  · rw [if_neg hn]
    exact nodup_compare n

section

variable {r : Rhs} {dest : Operand} {t : ValType} (hh : Holding m ρ L)
  (hrhs : ∀ {lines v : List (Line Opcode)} {pc : Nat} {T : List V}, rhs c m n r = .ok v →
    At lines pc v → (lines.filterMap Line.label?).Nodup →
    Does J lines L pc v T (r.eval (J.tac c (ρ "this")) ρ) (· :: T))

include hh hrhs

theorem runs_assign_slot {x : String} (h : (do
      let v ← rhs c m n r
      return v ++ [← store m dest]) = .ok part)
    (hu : (part.filterMap Line.label?).Nodup)
    (hslot : (Instr.assign dest t r).slot? m = (m.slots.get? x).map (·.1))
    (hstore : store m dest = (slot m x).map fun (k, j) ↦ .op (.store k j) (-1))
    (hexec : ∀ w, (Instr.assign dest t r).exec (J.tac c (ρ "this")) ρ w =
      .after (r.eval (J.tac c (ρ "this")) ρ) ρ w fun v w' ↦ .next (ρ.set x v) w') :
    Runs J m (.assign dest t r) part S ρ L w
      ((Instr.assign dest t r).exec (J.tac c (ρ "this")) ρ w) := by
  obtain ⟨v, hv, h⟩ := bind_eq_ok.1 h
  obtain ⟨line, hl, h⟩ := bind_eq_ok.1 h
  obtain rfl := Except.ok.inj h
  rw [hstore] at hl
  cases hs : slot m x with
  | error f => exact absurd (hs ▸ hl) nofun
  | ok p =>
    obtain ⟨k, j⟩ := p
    obtain ⟨ty, hget⟩ := slot_eq_ok hs
    obtain rfl := Except.ok.inj (hs ▸ hl)
    have hat := At.whole (v ++ [.op (.store k j) (-1)])
    refine .of_store _ hh hget ?_ (hrhs hv hat.left hu) (hexec w)
    rw [hslot, hget]
    rfl

theorem runs_assign_elem {array index : Operand} {ty : ValType}
    (h : (instr c m n (.assign (.elem array index ty) t r)).1 = .ok part)
    (hthis : ∀ cls, .this cls ∈ (Instr.assign (.elem array index ty) t r).mentions →
      L 0 = ρ "this") :
    Runs J m (.assign (.elem array index ty) t r) part S ρ L w
      ((Instr.assign (.elem array index ty) t r).exec (J.tac c (ρ "this")) ρ w) := by
  have hu := nodup_labels_assign h
  obtain ⟨place, hp, heq⟩ := instr_elem h
  rw [heq] at h
  obtain ⟨v, hv, h⟩ := bind_eq_ok.1 h
  obtain rfl := Except.ok.inj h
  obtain ⟨as, ha, hp⟩ := bind_eq_ok.1 hp
  obtain ⟨is, hi, hp⟩ := bind_eq_ok.1 hp
  obtain rfl := Except.ok.inj hp
  have hparts (cls : String) (hc : .this cls ∈ array.parts ∨ .this cls ∈ index.parts) :
      L 0 = ρ "this" := by
    refine hthis cls (List.mem_append_left _ (List.mem_cons_of_mem _ ?_))
    exact List.mem_append.2 hc
  have hat := At.whole (as ++ is ++ v ++ [.op (.arrayStore (elementKind ty)) (-3)])
  simp only [List.append_assoc] at hat hu ⊢
  refine .of_does (do
    let a ← array.eval (J.tac c (ρ "this")) ρ
    let i ← index.eval (J.tac c (ρ "this")) ρ
    let u ← r.eval (J.tac c (ρ "this")) ρ
    J.arrayStore (elementKind ty) a i u) hh ?_ rfl
  refine (does_load hh c ha hat.left fun cls hc ↦ hparts cls (.inl hc)).bind fun a ↦ ?_
  refine (does_load hh c hi hat.right.left fun cls hc ↦ hparts cls (.inr hc)).bind fun i ↦ ?_
  refine (hrhs hv hat.right.right.left hu).bind fun u ↦ ?_
  exact .op hat.right.right.right fun w ↦ rfl

theorem runs_assign (h : (instr c m n (.assign dest t r)).1 = .ok part)
    (hthis : ∀ cls, .this cls ∈ (Instr.assign dest t r).mentions → L 0 = ρ "this") :
    Runs J m (.assign dest t r) part S ρ L w
      ((Instr.assign dest t r).exec (J.tac c (ρ "this")) ρ w) := by
  have hu := nodup_labels_assign h
  cases dest with
  | lit | this | cls =>
    obtain ⟨v, -, h⟩ := bind_eq_ok.1 h
    obtain ⟨line, hl, -⟩ := bind_eq_ok.1 h
    exact absurd hl nofun
  | var x ty => exact runs_assign_slot hh hrhs h hu rfl rfl fun _ ↦ rfl
  | param j x ty => exact runs_assign_slot hh hrhs h hu rfl rfl fun _ ↦ rfl
  | elem array index ty => exact runs_assign_elem hh hrhs h hthis

end

/-- The lines of an instruction run as it does, from any operand stack and from any slots that hold
the values of the variables; the receiver is the variable `this`. -/
theorem instr_correct (J : Interp V W)
    (hm : m.slots = .ofCode (if m.isStatic then none else some c.name) m.params m.code)
    (h : (instr c m n i).1 = .ok part) (hi : i.Basic) (hw : i.WellFormed m)
    (hb : ∀ k ∈ i.call?, k.Binds c) (hh : Holding m ρ L) (S : List V) (w : W) :
    Runs J m i part S ρ L w (i.exec (J.tac c (ρ "this")) ρ w) := by
  have hthis (hu : i.UsesThis) : L 0 = ρ "this" := hh.this hm (hw.usesThis hu)
  have hmentions (cls : String) (hc : .this cls ∈ i.mentions) : L 0 = ρ "this" :=
    hthis (Instr.usesThis_of_mentions hc)
  cases i with
  | putField name t x => exact runs_putField hh h (hthis trivial)
  | call k => exact runs_call hh h (hw.shaped k rfl) (hb k rfl) hmentions
  | branch cond l => exact runs_branch hh h hmentions
  | assign dest t r =>
    refine runs_assign hh (fun hv hat hu ↦ does_rhs hh hv hat hu ?_ ?_ ?_) h hmentions
    · rintro k rfl
      exact ⟨hw.shaped k rfl, hb k rfl, hw.assigned dest t k rfl⟩
    · rintro name t rfl
      exact hthis trivial
    · exact fun cls hc ↦ hmentions cls (List.mem_append_right _ hc)
  | goto | label | «return» | invalid => exact hi.elim

/-- `b = 0 < y`, which tests `y` alone. -/
theorem instr_correct_less :
    let y : Operand := .param 0 "y" .int
    let i : Instr := .assign (.var "b" .bool) .bool (.less (.lit 0 .int) y)
    let m : Tac.Method :=
      ⟨"m", true, true, false, [⟨"y", .int⟩], .void, [i], .ofCode none [⟨"y", .int⟩] [i]⟩
    let c : Tac.Class := ⟨"A", none, [], [], [m]⟩
    let ρ : Store Int32 := fun x ↦ if x = "y" then 5 else 0
    let L : Locals Int32 := fun k ↦ if k = 0 then 5 else 0
    ∃ part, (instr c m 0 i).1 = .ok part ∧ i.Basic ∧ i.WellFormed m ∧
      (∀ k ∈ i.call?, k.Binds c) ∧ Holding m ρ L ∧
      ∃ L', Reaches .words part ⟨0, [7], L, []⟩ ⟨part.length, [7], L', []⟩ ∧
        L' 1 = 1 ∧ ∀ k, k ≠ 1 → L' k = L k := by
  intro y i m c ρ L
  have hw : i.WellFormed m := by
    refine ⟨nofun, fun _ _ _ h ↦ by simp [i] at h, ?_⟩
    rintro ⟨cls, h⟩
    have h : Operand.this cls ∈ [.var "b" .bool, .lit 0 .int, y] := h
    simp [y] at h
  have hh : Holding m ρ L := by
    intro x j t hx
    have hv := Slots.getElem?_of_get? hx
    rcases j with _ | _ | j
    · cases hv
      rfl
    · cases hv
      rfl
    · cases hv
  obtain ⟨L', hr, hh', hf⟩ :=
    instr_correct .words (n := 0) (m := m) (c := c) (i := i) rfl rfl trivial hw nofun hh [7] []
  refine ⟨_, rfl, trivial, hw, nofun, hh, L', hr, hh' "b" 1 .bool rfl, fun k hk ↦ hf k ?_⟩
  exact fun h ↦ hk (Option.some.inj h).symm

/-- A call that passes a value to a method without parameters leaves the value on the stack. -/
theorem instr_call_unsuited :
    let i : Instr := .call ⟨.static "A" "f" [.lit 7 .int], .void⟩
    let f : Tac.Method :=
      ⟨"f", true, true, false, [], .void, [.return .void none], .ofCode none [] []⟩
    let m : Tac.Method := ⟨"m", true, true, false, [], .void, [i], .ofCode none [] [i]⟩
    let c : Tac.Class := ⟨"A", none, [], [], [f, m]⟩
    ∃ part, (instr c m 0 i).1 = .ok part ∧ i.Basic ∧ i.WellFormed m ∧
      Holding m (fun _ ↦ (0 : Int32)) (fun _ ↦ 0) ∧
      ¬ Runs .words m i part [] (fun _ ↦ 0) (fun _ ↦ 0) []
        (i.exec (Interp.words.tac c 0) (fun _ ↦ 0) []) := by
  intro i f m c
  have hw : i.WellFormed m := by
    refine ⟨?_, fun _ _ _ h ↦ by simp [i] at h, ?_⟩
    · rintro k ⟨⟩
      trivial
    · rintro ⟨cls, h⟩
      have h : Operand.this cls ∈ [.lit 7 .int] := h
      simp at h
  refine ⟨_, rfl, trivial, hw, fun _ _ _ _ ↦ rfl, ?_⟩
  rintro ⟨L', hr, -⟩
  -- After two steps the machine is at the end of the lines, with the constant on its stack.
  rcases hr.cases_head with h | ⟨b, hb, hr⟩
  · cases h
  obtain rfl := Step.run.inj hb
  rcases hr.cases_head with h | ⟨b, hb, hr⟩
  · cases h
  obtain rfl := Step.run.inj hb
  rcases hr.cases_head with h | ⟨b, hb, -⟩
  · cases h
  · cases hb

end MiniJava.Jasmin

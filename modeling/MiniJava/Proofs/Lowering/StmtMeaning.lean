import MiniJava.Proofs.Lowering.Simulates

namespace MiniJava.Scope

open Tac Lower Meaning

variable {V W : Type} {I : Interp V W} {s : Scope} {σ : Store V}

theorem simulates_lowerIf (hs : s.Own) {cond : Expr} (hc : cond.Everywhere Expr.Countable)
    {body other : Lower Unit} {M N : Meaning V W} (hb : Simulates I s Anywhere body M)
    (ho : Simulates I s Anywhere other N) :
    Simulates I s Anywhere (s.lowerIf cond body other)
      (after (fun σ ↦ s.eval I σ cond) fun v ↦ if I.isTrue v then M else N) := by
  intro n code pc hu hat hv ρ st ha _
  rw [s.lowerIf_apply] at hat hv ⊢
  simp only [List.mem_append, List.mem_cons, not_or] at hv
  have hno := hat.right.tail
  have hyes := hno.tail
  have hleave := hyes.tail.right
  have helse := hleave.tail
  have hend := helse.tail.right
  have hdecide := decides_lowerCond (I := I) hs hc hu hat (fun what ↦ (hv what).1) hyes.head ha
    st.world
  have hbranch := hdecide.extend (reaches_label hyes.head) (reaches_goto hu hno.head helse.head)
  have hbodyRuns (ρ' : Store V) (w' : W) (ha' : s.symbols.Agree ρ' st.store) :=
    (hb _ code _ hu hyes.tail.left (fun what ↦ (hv what).2.2.2.2.1) ρ' ⟨st.store, w'⟩ ha'
      trivial).extend (reaches_goto hu hleave.head hend.head)
  have hotherRuns (ρ' : Store V) (w' : W) (ha' : s.symbols.Agree ρ' st.store) :=
    (ho _ code _ hu helse.tail.left (fun what ↦ (hv what).2.2.2.2.2.2.2.1) ρ' ⟨st.store, w'⟩ ha'
      trivial).extend (reaches_label hend.head)
  refine (Tracks.decide hbranch hbodyRuns hotherRuns).to_exit ?_
  simp only [List.length_append, List.length_cons, List.length_nil]
  omega

theorem simulates_lowerWhile (hs : s.Own) {cond : Expr} (hc : cond.Everywhere Expr.Countable)
    {body : Lower Unit} {M : Meaning V W} (hb : Simulates I s Anywhere body M) :
    Simulates I s Anywhere (s.lowerWhile cond body) (Loop I (fun σ ↦ s.eval I σ cond) M) := by
  intro n code pc hu hat hv ρ st ha _
  rw [s.lowerWhile_apply] at hat hv ⊢
  simp only [List.mem_append, List.mem_cons, not_or] at hv
  have hno := hat.right.tail
  have hyes := hno.tail
  have hagain := hyes.tail.right
  have hend := hagain.right.tail
  have hfirst := (decides_lowerCond (I := I) hs hc hu hat (fun what ↦ (hv what).1) hyes.head ha
    st.world).extend (reaches_label hyes.head) (reaches_goto hu hno.head hend.head)
  have hlater (ρ' : Store V) (st' : State V W) (ha' : s.symbols.Agree ρ' st'.store) :=
    (decides_lowerCond (I := I) hs hc hu hagain (fun what ↦ (hv what).2.2.2.2.2.1) hyes.head ha'
      st'.world).extend (reaches_label hyes.head) (reaches_label hend.head)
  have hbodyRuns (ρ' : Store V) (st' : State V W) (ha' : s.symbols.Agree ρ' st'.store) :=
    hb _ code _ hu hyes.tail.left (fun what ↦ (hv what).2.2.2.2.1) ρ' st' ha' trivial
  refine (Tracks.loop hfirst hlater hbodyRuns).to_exit ?_
  simp only [List.length_append, List.length_cons, List.length_nil]
  omega

structure Names (I : Interp V W) (dest : Operand) (x : String) : Prop where
  settled : ∀ s n, dest.Settled s n = ¬ s.LaterTemp n x
  eval_eq : ∀ ρ, dest.eval (.ofSource I) ρ = pure (ρ x)
  exec_eq : ∀ t rhs ρ w, (Instr.assign dest t rhs).exec (.ofSource I) ρ w =
    .after (rhs.eval (.ofSource I) ρ) ρ w fun v w' ↦ .next (ρ.set x v) w'

theorem names_var (x : String) (t : ValType) : Names I (.var x t) x :=
  ⟨fun _ _ ↦ rfl, fun _ ↦ rfl, fun _ _ _ _ ↦ rfl⟩

theorem names_param (i : Nat) (x : String) (t : ValType) : Names I (.param i x t) x :=
  ⟨fun _ _ ↦ rfl, fun _ ↦ rfl, fun _ _ _ _ ↦ rfl⟩

theorem Names.holds {dest : Operand} {x : String} (h : Names I dest x)
    (hx : x ∈ s.symbols.declaredNames) {ρ : Store V} (ha : s.symbols.Agree ρ σ) (n : Nat) :
    Holds I s dest (σ x) n ρ where
  settled := by
    rw [h.settled]
    exact not_laterTemp_of_declared hx
  eval_eq := (h.eval_eq ρ).trans (congrArg _ (ha x hx))

section

variable (hs : s.Own) {value index : Expr} (hv : value.Everywhere Expr.Countable)
  (hi : index.Everywhere Expr.Countable)

include hs hv

include hi in
theorem realizes_storeElement (array : Operand) (a : V) :
    Realizes I s σ (Holds I s array a) (s.storeElement array index value)
      (do let j ← s.eval I σ index; let v ← s.eval I σ value; I.store a j v)
      fun _ _ _ _ ↦ True := by
  have harray : s.Stable (Holds I s array a) := Holds.stable array a
  refine ((realizes_lower hs hi (some .int)).keep harray).bind fun i j ↦ ?_
  have hvalue := realizes_lower (I := I) (σ := σ) hs hv (some (array.ty.element?.getD .int))
  refine (hvalue.keep (harray.and (Holds.stable i j))).bind fun b v ↦ ?_
  refine Realizes.drop (.emit fun n ρ w _ hp ↦ ?_)
  simp only [Instr.exec, Rhs.eval, hp.1.1.eval_eq, hp.1.2.eval_eq, hp.2.eval_eq, pure_bind]
  rfl

theorem simulates_setVar {dest : Operand} {x : String} (hd : Names I dest x) :
    Simulates I s Anywhere (s.assignVar dest none value)
      (after (fun σ ↦ s.eval I σ value) fun v st o ↦ o = .next ⟨st.store.set x v, st.world⟩) := by
  refine .after (fun σ ↦ realizes_lower hs hv _) fun a v ↦ .emit fun n ρ st ha hp ↦ ?_
  refine ⟨_, rfl, ?_⟩
  rw [hd.exec_eq, Rhs.eval, hp.eval_eq]
  exact ⟨ha.set x v, rfl⟩

include hi in
theorem simulates_setElement {dest : Operand} {x : String} (hd : Names I dest x)
    (hx : x ∈ s.symbols.declaredNames) :
    Simulates I s Anywhere (s.assignVar dest (some index) value)
      (after (fun σ ↦ do
        let j ← s.eval I σ index
        let v ← s.eval I σ value
        I.store (σ x) j v) fun _ ↦ skip) := by
  refine .of_realizes fun σ n code pc hu hat hvalid ρ w ha _ ↦ ?_
  exact realizes_storeElement hs hv hi dest (σ x) n code pc hu hat hvalid ρ w ha (hd.holds hx ha _)

theorem simulates_setField (name : String) (t : ValType) :
    Simulates I s Anywhere (s.assignField name t none value)
      (after (fun σ ↦ do
        let v ← s.eval I σ value
        I.writeField name v) fun _ ↦ skip) := by
  refine .of_realizes fun σ ↦ (realizes_lower hs hv _).bind fun a v ↦ ?_
  refine Realizes.drop (.emit fun n ρ w _ hp ↦ ?_)
  simp only [Instr.exec, hp.eval_eq, pure_bind]
  rfl

include hi in
theorem simulates_setFieldElement (name : String) (t : ValType) :
    Simulates I s Anywhere (s.assignField name t (some index) value)
      (after (fun σ ↦ do
        let array ← I.readField name
        let j ← s.eval I σ index
        let v ← s.eval I σ value
        I.store array j v) fun _ ↦ skip) := by
  refine .of_realizes fun σ ↦ ?_
  have hread : Realizes I s σ Anywhere (s.readField name t) (I.readField name) (Holds I s) :=
    realizes_toTemp fun _ _ _ _ ↦ rfl
  exact hread.bind fun array a ↦ realizes_storeElement hs hv hi array a

end

theorem simulates_lowerAssign (hs : s.Own) (target : Ident) {index : Option Expr} {value : Expr}
    (hi : ∀ i ∈ index, i.Everywhere Expr.Countable) (hv : value.Everywhere Expr.Countable) :
    Simulates I s Anywhere (s.lowerAssign target index value)
      (s.assignMeaning I target index value) := by
  have hvar (dest : Operand) (hd : Names I dest target.name)
      (hx : target.name ∈ s.symbols.declaredNames) :
      Simulates I s Anywhere (s.assignVar dest index value) (match index with
        | none => after (fun σ ↦ s.eval I σ value) fun v st o ↦
          o = .next ⟨st.store.set target.name v, st.world⟩
        | some i => after (fun σ ↦ do
          let j ← s.eval I σ i
          let v ← s.eval I σ value
          I.store (σ target.name) j v) fun _ ↦ skip) := by
    cases index with
    | none => exact simulates_setVar hs hv hd
    | some i => exact simulates_setElement hs hv (hi i rfl) hd hx
  have hfield (t : ValType) :
      Simulates I s Anywhere (s.assignField target.name t index value) (match index with
        | none => after (fun σ ↦ do
          let v ← s.eval I σ value
          I.writeField target.name v) fun _ ↦ skip
        | some i => after (fun σ ↦ do
          let array ← I.readField target.name
          let j ← s.eval I σ i
          let v ← s.eval I σ value
          I.store array j v) fun _ ↦ skip) := by
    cases index with
    | none => exact simulates_setField hs hv _ t
    | some i => exact simulates_setFieldElement hs hv (hi i rfl) _ t
  unfold lowerAssign assignMeaning
  cases hb : s.binding target.name with
  | param i p =>
    have hx := declared_of_methodBinding? hs (methodBinding?_of_binding hb (.inl ⟨i, p, rfl⟩))
    cases index <;> exact hvar _ (names_param ..) hx
  | «local» v =>
    have hx := declared_of_methodBinding? hs (methodBinding?_of_binding hb (.inr ⟨v, rfl⟩))
    cases index <;> exact hvar _ (names_var ..) hx
  | field f => cases index <;> exact hfield _
  | inherited => cases index <;> exact hfield _
  | cls => exact .unsupported
  | undeclared => exact .unsupported

theorem simulates_lowerReturn (hs : s.Own) {value : Option Expr} (pos : Position)
    (hv : ∀ e ∈ value, e.Everywhere Expr.Countable) :
    Simulates I s Anywhere (s.lowerReturn value) (s.meaning I (.return value pos)) := by
  cases value with
  | none => exact .emit fun _ _ _ ha _ ↦ ⟨_, rfl, rfl, ha, rfl⟩
  | some e =>
    refine .after (fun σ ↦ realizes_lower hs (hv e rfl) _) fun a v ↦ .emit fun n ρ st ha hp ↦ ?_
    refine ⟨_, rfl, ?_⟩
    simp only [Instr.exec, hp.eval_eq]
    exact ⟨rfl, ha, rfl⟩

theorem simulates_lowerEffect (hs : s.Own) {e : Expr} (he : e.Everywhere Expr.Countable) :
    Simulates I s Anywhere (s.lowerEffect e) (after (fun σ ↦ s.eval I σ e) fun _ ↦ skip) := by
  refine .of_realizes fun σ ↦ ?_
  have hin := he.unparen
  rw [← eval_unparen]
  unfold lowerEffect
  split
  · next recv method args pos h =>
    rw [h] at hin ⊢
    have hargs : args.length < 2 ^ 31 := hin.here
    rw [eval_call]
    refine (realizes_lowerCall (fun c hc ↦ realizes_lower hs (hin.inside c hc)) hargs method
      (some .void)).bind fun c call ↦ ?_
    refine Realizes.drop (.emit fun n ρ w _ hp ↦ ?_)
    simp only [Instr.exec, hp]
    rfl
  · rw [← bind_pure (s.eval I σ e.unparen)]
    exact (realizes_lower hs hin none).bind fun _ _ ↦ .pure fun _ _ _ _ ↦ trivial

mutual

/-- Code that is generated for a statement ends as the statement does. -/
theorem simulates_lowerStmt (hs : s.Own) : ∀ stmt : Stmt,
    (∀ e ∈ stmt.exprs, e.Everywhere Expr.Countable) →
    Simulates I s Anywhere (s.lowerStmt stmt) (s.meaning I stmt)
  | .var _, _ => .skip
  | .block body _, h => simulates_lowerStmts hs body h
  | .ifThen _ body _, h =>
    simulates_lowerIf hs (h _ List.mem_cons_self)
      (simulates_lowerStmt hs body fun e he ↦ h e (List.mem_cons_of_mem _ he)) .skip
  | .ifElse _ body other _, h =>
    simulates_lowerIf hs (h _ List.mem_cons_self)
      (simulates_lowerStmt hs body fun e he ↦
        h e (List.mem_cons_of_mem _ (List.mem_append_left _ he)))
      (simulates_lowerStmt hs other fun e he ↦
        h e (List.mem_cons_of_mem _ (List.mem_append_right _ he)))
  | .while _ body _, h =>
    simulates_lowerWhile hs (h _ List.mem_cons_self)
      (simulates_lowerStmt hs body fun e he ↦ h e (List.mem_cons_of_mem _ he))
  | .expr e _, h => simulates_lowerEffect hs (h e (List.mem_singleton_self e))
  | .assign target _ value _, h =>
    simulates_lowerAssign hs target
      (fun i hi ↦ h i (List.mem_append_left _ (Option.mem_toList.2 hi)))
      (h value (List.mem_append_right _ (List.mem_singleton_self value)))
  | .return _ pos, h =>
    simulates_lowerReturn hs pos fun e he ↦ h e (Option.mem_toList.2 he)

theorem simulates_lowerStmts (hs : s.Own) : ∀ stmts : List Stmt,
    (∀ e ∈ Stmt.exprsAll stmts, e.Everywhere Expr.Countable) →
    Simulates I s Anywhere (s.lowerStmts stmts) (s.meaningAll I stmts)
  | [], _ => .skip
  | stmt :: rest, h =>
    .seq (simulates_lowerStmt hs stmt fun e he ↦ h e (List.mem_append_left _ he))
      (simulates_lowerStmts hs rest fun e he ↦ h e (List.mem_append_right _ he))

end

end MiniJava.Scope

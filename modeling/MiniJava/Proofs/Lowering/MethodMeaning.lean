import MiniJava.Lower.Program
import MiniJava.Proofs.Lowering.StmtMeaning

namespace MiniJava

open Tac Lower

variable {V W : Type}

def Program.scope (p : Program) (m : MethodDecl) : Scope := ⟨p.symbols, some m.signature⟩

theorem findRev?_eq_some_of_unique {α : Type} {l : List α} {P : α → Bool} {a : α} (ha : a ∈ l)
    (hp : P a) (hu : ∀ b ∈ l, P b → b = a) : l.findRev? P = some a := by
  rw [List.findRev?_eq_findRev?TR, List.findRev?TR]
  cases hf : l.reverse.find? P with
  | none => exact absurd hp (List.find?_eq_none.1 hf a (List.mem_reverse.2 ha))
  | some b =>
    rw [hu b (List.mem_reverse.1 (List.mem_of_find?_eq_some hf)) (List.find?_some hf)]

namespace Program

variable {p : Program} {m : MethodDecl}

theorem method?_eq (hn : (p.cls.methods.map (·.name.name)).Nodup) (hm : m ∈ p.cls.methods) :
    p.symbols.method? m.name.name = some m.signature := by
  refine findRev?_eq_some_of_unique (List.mem_map_of_mem hm) (by simp [MethodDecl.signature]) ?_
  rintro _ hb he
  obtain ⟨m', hm', rfl⟩ := List.mem_map.1 hb
  rw [List.inj_on_of_nodup_map hn hm' hm (by simpa [MethodDecl.signature] using he)]

theorem scope_own (hm : m ∈ p.cls.methods) : (p.scope m).Own := by
  rintro _ ⟨⟩
  exact List.mem_map_of_mem hm

theorem lowerMethods_getElem? (t : Symbols) (ms : List MethodDecl) (n : Numbering) {i : Nat}
    (hm : ms[i]? = some m) : ∃ n', (t.lowerMethods n ms).1[i]? =
      some (m.withBody t.className (m.lower t n').code) := by
  induction ms generalizing i n with
  | nil => simp at hm
  | cons m' ms ih =>
    cases i with
    | zero =>
      obtain rfl : m' = m := by simpa using hm
      exact ⟨n, rfl⟩
    | succ i => exact ih (m'.lower t n).next (by simpa using hm)

/-- The code of a method is that of its statements, with a return at its end where one is due. -/
theorem lower_method_eq (hn : (p.cls.methods.map (·.name.name)).Nodup) {i : Nat} {tm : Tac.Method}
    (hm : p.cls.methods[i]? = some m) (ht : p.lower.1.methods[i + 1]? = some tm) :
    ∃ n, tm.code = closeBody (.ofTy m.ret.ty) ((p.scope m).lowerStmts m.body n).code := by
  obtain ⟨n, hl⟩ := lowerMethods_getElem? p.symbols p.cls.methods {} hm
  have htm : p.lower.1.methods[i + 1]? = (p.symbols.lowerMethods {} p.cls.methods).1[i]? := rfl
  rw [htm, hl, Option.some.injEq] at ht
  refine ⟨n, ?_⟩
  rw [← ht, MethodDecl.lower, method?_eq hn (List.mem_of_getElem? hm)]
  rfl

end Program

theorem Tac.ValType.ofTy_eq_void_iff (t : Ty) : ValType.ofTy t = .void ↔ t = .void := by
  obtain ⟨name, isArray⟩ := t
  cases isArray with
  | true => simp [ofTy, Ty.void]
  | false =>
    simp only [ofTy, Bool.false_eq_true, if_false, ofName, Ty.void, Ty.mk.injEq, and_true]
    split_ifs <;> simp_all

section

variable {I : Interp V W} {ret : ValType} {code : List Instr} {ρ ρ' : Store V} {w w' : W}

theorem labelNames_closeBody : labelNames (closeBody ret code) = labelNames code := by
  unfold closeBody
  split <;> simp [Instr.label?]

theorem at_closeBody : At (closeBody ret code) 0 code := by
  unfold closeBody
  split
  · exact (At.whole _).left
  · exact .whole code

/-- At the end of its body a method without a result returns, any other one has no way to go on. -/
theorem step_closeBody (h : Reaches (.ofSource I) (closeBody ret code) ⟨0, ρ, w⟩
    ⟨code.length, ρ', w'⟩) :
    step (.ofSource I) (closeBody ret code) ⟨code.length, ρ', w'⟩ =
      if ret = .void then .returned none ρ' w' else .stuck := by
  by_cases hret : ret = .void
  · cases hlast : code.getLast?.any Instr.isReturn with
    | false =>
      have hclose : closeBody ret code = code ++ [.return .void none] := by
        simp [closeBody, hret, hlast]
      rw [hclose, if_pos hret]
      exact step_eq_returned (i := .return .void none) (by simp) rfl
    | true =>
      have hclose : closeBody ret code = code := by simp [closeBody, hlast]
      rw [hclose] at h
      have hpos : 0 < code.length := by
        cases code with
        | nil => exact absurd hlast nofun
        | cons => exact Nat.succ_pos _
      exact absurd (h.pc_lt hlast hpos) (Nat.lt_irrefl _)
  · have hclose : closeBody ret code = code := by simp [closeBody, hret]
    rw [hclose, if_neg hret]
    exact step_of_length_le (Nat.le_refl _)

end

/-- States that differ in variables that are declared nowhere, if at all. -/
def Symbols.Same (t : Symbols) (st st' : State V W) : Prop :=
  t.Agree st.store st'.store ∧ st.world = st'.world

section

variable {I : Interp V W} {s : Scope} {m : MethodDecl} {body : List Instr} {ρ ρ' : Store V} {w' : W}
  {st st₁ : State V W} {r : Option V}
  (h : s.Tracks I (closeBody (.ofTy m.ret.ty) body) 0 body.length ρ st.world
    (s.meaningAll I m.body st))

include h

theorem Scope.Tracks.returns_of_finishes (hf : m.Finishes I s st r st₁) :
    ∃ ρ', Returns (.ofSource I) (closeBody (.ofTy m.ret.ty) body) ⟨0, ρ, st.world⟩ r ρ' st₁.world ∧
      s.symbols.Agree ρ' st₁.store := by
  cases hf with
  | returned hm => exact h.ends _ hm
  | fellOff hret hm =>
    obtain ⟨ρ', hr, ha⟩ := h.ends _ hm
    refine ⟨ρ', ⟨_, hr, ?_⟩, ha⟩
    rw [step_closeBody hr, if_pos ((ValType.ofTy_eq_void_iff _).2 hret)]

theorem Scope.Tracks.finishes_of_returns
    (hr : Returns (.ofSource I) (closeBody (.ofTy m.ret.ty) body) ⟨0, ρ, st.world⟩ r ρ' w') :
    ∃ st₁, m.Finishes I s st r st₁ ∧ st₁.world = w' ∧ s.symbols.Agree ρ' st₁.store := by
  obtain ⟨a, hreach, hstep⟩ := hr
  obtain ⟨o, ho⟩ := h.exists_ending hreach (by simp [hstep])
  have hends := h.ends o ho
  cases o with
  | next st₁ =>
    obtain ⟨ρ₁, hr₁, ha⟩ := hends
    have hend := step_closeBody hr₁
    by_cases hret : ValType.ofTy m.ret.ty = .void
    · rw [if_pos hret] at hend
      have heq := (hr₁.final_eq hend hreach hstep nofun nofun).2
      rw [Step.returned.injEq] at heq
      obtain ⟨rfl, rfl, hw⟩ := heq
      exact ⟨st₁, .fellOff ((ValType.ofTy_eq_void_iff _).1 hret) ho, hw, ha⟩
    · rw [if_neg hret] at hend
      exact absurd (hr₁.final_eq hend hreach hstep nofun nofun).2 nofun
  | returned v st₁ =>
    obtain ⟨ρ₁, ⟨b, hb, hbs⟩, ha⟩ := hends
    have heq := (hb.final_eq hbs hreach hstep nofun nofun).2
    rw [Step.returned.injEq] at heq
    obtain ⟨rfl, rfl, hw⟩ := heq
    exact ⟨st₁, .returned ho, hw, ha⟩
  | aborted st₁ =>
    obtain ⟨ρ₁, ⟨b, hb, hbs⟩, ha⟩ := hends
    exact absurd (hb.final_eq hbs hreach hstep nofun nofun).2 nofun

theorem Scope.Tracks.aborts_of_aborts
    (hr : Tac.Aborts (.ofSource I) (closeBody (.ofTy m.ret.ty) body) ⟨0, ρ, st.world⟩ ρ' w') :
    ∃ st₁, m.Aborts I s st st₁ ∧ st₁.world = w' ∧ s.symbols.Agree ρ' st₁.store := by
  obtain ⟨a, hreach, hstep⟩ := hr
  obtain ⟨o, ho⟩ := h.exists_ending hreach (by simp [hstep])
  have hends := h.ends o ho
  cases o with
  | next st₁ =>
    obtain ⟨ρ₁, hr₁, ha⟩ := hends
    have hend := step_closeBody hr₁
    split at hend <;> exact absurd (hr₁.final_eq hend hreach hstep nofun nofun).2 nofun
  | returned v st₁ =>
    obtain ⟨ρ₁, ⟨b, hb, hbs⟩, ha⟩ := hends
    exact absurd (hb.final_eq hbs hreach hstep nofun nofun).2 nofun
  | aborted st₁ =>
    obtain ⟨ρ₁, ⟨b, hb, hbs⟩, ha⟩ := hends
    have heq := (hb.final_eq hbs hreach hstep nofun nofun).2
    rw [Step.aborted.injEq] at heq
    obtain ⟨rfl, hw⟩ := heq
    exact ⟨st₁, ho, hw, ha⟩

theorem Scope.Tracks.endless_iff : (∀ o, ¬ s.meaningAll I m.body st o) ↔
    Endless (.ofSource I) (closeBody (.ofTy m.ret.ty) body) ⟨0, ρ, st.world⟩ := by
  refine ⟨h.endless, fun hforever o ho ↦ ?_⟩
  have hends := h.ends o ho
  cases o with
  | next st₁ =>
    obtain ⟨ρ₁, hr₁, -⟩ := hends
    refine hforever.not_final hr₁ ?_
    rw [step_closeBody hr₁]
    split <;> exact nofun
  | returned v st₁ | aborted st₁ =>
    obtain ⟨ρ₁, ⟨b, hb, hbs⟩, -⟩ := hends
    exact hforever.not_final hb (by simp [hbs])

end

/-- The code of a method returns just where the method finishes, with the same result, aborts just
where it aborts, and runs forever just where it does. -/
theorem Program.lowerMethod_correct (I : Interp V W) {p : Program}
    (hn : (p.cls.methods.map (·.name.name)).Nodup) {i : Nat} {m : MethodDecl} {tm : Tac.Method}
    (hm : p.cls.methods[i]? = some m) (ht : p.lower.1.methods[i + 1]? = some tm)
    (hv : ∀ what, .invalid what ∉ tm.code)
    (hc : ∀ e ∈ Stmt.exprsAll m.body, e.Everywhere Expr.Countable) {st : State V W} {ρ : Store V}
    (ha : p.symbols.Agree ρ st.store) :
    (∀ r st', (∃ st₁, m.Finishes I (p.scope m) st r st₁ ∧ p.symbols.Same st₁ st') ↔
      ∃ ρ', Returns (.ofSource I) tm.code ⟨0, ρ, st.world⟩ r ρ' st'.world ∧
        p.symbols.Agree ρ' st'.store) ∧
    (∀ st', (∃ st₁, m.Aborts I (p.scope m) st st₁ ∧ p.symbols.Same st₁ st') ↔
      ∃ ρ', Tac.Aborts (.ofSource I) tm.code ⟨0, ρ, st.world⟩ ρ' st'.world ∧
        p.symbols.Agree ρ' st'.store) ∧
    ((∀ o, ¬ (p.scope m).meaningAll I m.body st o) ↔
      Endless (.ofSource I) tm.code ⟨0, ρ, st.world⟩) := by
  obtain ⟨n, hcode⟩ := lower_method_eq hn hm ht
  rw [hcode] at hv ⊢
  have hs := scope_own (List.mem_of_getElem? hm)
  have hvalid (what : String) : .invalid what ∉ ((p.scope m).lowerStmts m.body n).code :=
    fun hw ↦ hv what (by unfold closeBody; split <;> simp [hw])
  have hunique : (labelNames (closeBody (.ofTy m.ret.ty)
      ((p.scope m).lowerStmts m.body n).code)).Nodup := by
    rw [labelNames_closeBody]
    exact (labelled.lowerStmts (p.scope m) m.body n).2.nodup
  have htracks := Scope.simulates_lowerStmts (I := I) hs m.body hc n _ 0 hunique at_closeBody hvalid
    ρ st ha trivial
  rw [Nat.zero_add] at htracks
  refine ⟨fun r st' ↦ ⟨?_, ?_⟩, fun st' ↦ ⟨?_, ?_⟩, htracks.endless_iff⟩
  · rintro ⟨st₁, hf, hsame, hw⟩
    obtain ⟨ρ', hr, ha'⟩ := htracks.returns_of_finishes hf
    exact ⟨ρ', hw ▸ hr, fun x hx ↦ (ha' x hx).trans (hsame x hx)⟩
  · rintro ⟨ρ', hr, ha'⟩
    obtain ⟨st₁, hf, hw, ha₁⟩ := htracks.finishes_of_returns hr
    exact ⟨st₁, hf, fun x hx ↦ (ha₁ x hx).symm.trans (ha' x hx), hw⟩
  · rintro ⟨st₁, hab, hsame, hw⟩
    obtain ⟨ρ', hr, ha'⟩ := htracks.ends _ hab
    exact ⟨ρ', hw ▸ hr, fun x hx ↦ (ha' x hx).trans (hsame x hx)⟩
  · rintro ⟨ρ', hr, ha'⟩
    obtain ⟨st₁, hab, hw, ha₁⟩ := htracks.aborts_of_aborts hr
    exact ⟨st₁, hab, fun x hx ↦ (ha₁ x hx).symm.trans (ha' x hx), hw⟩

/-- `int f() { int x; while (x < 1) x = x + 1; return x; }`, where `x` is 0. -/
theorem Program.lowerMethod_correct_loop :
    let pos := Position.point 1 1
    let x : Ident := ⟨"x", pos⟩
    let test := Expr.binary .less (.ident x) (.int 1 pos) pos
    let sum := Expr.binary (.arith .add) (.ident x) (.int 1 pos) pos
    let m : MethodDecl :=
      { isPublic := true, isStatic := false, ret := ⟨.int, false, false, pos⟩, name := ⟨"f", pos⟩
        params := [], pos
        body := [.var ⟨⟨.int, false, false, pos⟩, x, pos⟩,
          .while test (.assign x none sum pos) pos, .return (some (.ident x)) pos] }
    let p : Program := ⟨[], ⟨⟨"A", pos⟩, none, [], [m], pos⟩⟩
    let tm := m.withBody "A" ((p.scope m).lowerStmts m.body {}).code
    p.lower.1.methods[1]? = some tm ∧ ∃ ρ',
      Returns (.ofSource .words) tm.code ⟨0, fun _ ↦ 0, ()⟩ (some 1) ρ' () ∧ ρ' "x" = 1 := by
  intro pos x test sum m p tm
  have ht : p.lower.1.methods[0 + 1]? = some tm := rfl
  have hpair {op : BinOp} : (Expr.binary op (.ident x) (.int 1 pos) pos).Everywhere
      Expr.Countable := .two trivial rfl (.leaf trivial rfl) (.leaf trivial rfl)
  have hc : ∀ e ∈ Stmt.exprsAll m.body, e.Everywhere Expr.Countable :=
    List.forall_mem_cons.2 ⟨hpair, List.forall_mem_cons.2
      ⟨hpair, List.forall_mem_singleton.2 (.leaf trivial rfl)⟩⟩
  have hnone : tm.code.filterMap Instr.reason? = [] := rfl
  have hv (what : String) : .invalid what ∉ tm.code := fun hw ↦ by
    have hmem : what ∈ tm.code.filterMap Instr.reason? := List.mem_filterMap.2 ⟨_, hw, rfl⟩
    exact List.not_mem_nil (hnone ▸ hmem)
  let σ : Store Int32 := fun _ ↦ 0
  have hrun : m.Finishes .words (p.scope m) ⟨σ, ()⟩ (some 1) ⟨σ.set "x" 1, ()⟩ :=
    .returned (.next rfl (.next (.again rfl rfl rfl (.stop rfl rfl)) (.halt rfl trivial)))
  have hn : (p.cls.methods.map (·.name.name)).Nodup := List.nodup_singleton _
  have hm : p.cls.methods[0]? = some m := rfl
  have ha : p.symbols.Agree σ (State.mk σ ()).store := fun _ _ ↦ rfl
  obtain ⟨ρ', hr, ha'⟩ := ((lowerMethod_correct .words hn hm ht hv hc ha).1 (some 1)
    ⟨σ.set "x" 1, ()⟩).1 ⟨_, hrun, fun _ _ ↦ rfl, rfl⟩
  exact ⟨ht, ρ', hr, ha' "x" (by decide)⟩

end MiniJava

import MiniJava.Proofs.Lowering.ExprRules

namespace MiniJava

open Tac Lower

variable {V W : Type}

/-- Parameters are found by their names. -/
theorem Signature.mem_of_param? {m : Signature} {name : String} {i : Nat} {q : Parameter}
    (h : m.param? name = some (i, q)) : q ∈ m.params ∧ q.symbol.name = name := by
  obtain ⟨j, hj, h⟩ := Option.bind_eq_some_iff.1 h
  obtain ⟨q', hq, h⟩ := Option.bind_eq_some_iff.1 h
  obtain ⟨rfl, rfl⟩ := Prod.mk.inj (Option.some.inj h)
  obtain ⟨hlt, hname, -⟩ := List.findIdx?_eq_some_iff_getElem.1 hj
  obtain ⟨-, rfl⟩ := List.getElem?_eq_some_iff.1 hq
  exact ⟨List.getElem_mem hlt, eq_of_beq hname⟩

namespace Scope

variable {I : Interp V W} {s : Scope} {σ : Store V} {pre : Nat → Store V → Prop}

theorem evalEach_eq_map (es : List Expr) : s.evalEach I σ es = es.map (s.eval I σ) := by
  induction es with
  | nil => rfl
  | cons e es ih => rw [evalEach, ih, List.map_cons]

/-- Parameters and local variables are declared in the method. -/
theorem mem_of_methodBinding? {m : Signature} (hm : s.method = some m) {x : String} {b : Binding}
    (h : s.methodBinding? x = some b) :
    x ∈ m.params.map (·.symbol.name) ++ m.locals.map (·.name) := by
  simp only [methodBinding?, hm, Option.bind_some] at h
  rw [List.mem_append]
  cases hp : m.param? x with
  | some p =>
    obtain ⟨hmem, hx⟩ := Signature.mem_of_param? hp
    exact .inl (List.mem_map.2 ⟨_, hmem, hx⟩)
  | none =>
    right
    simp only [hp, Option.map_eq_some_iff] at h
    obtain ⟨v, hv, -⟩ := h
    exact List.mem_map.2 ⟨v, List.mem_of_find?_eq_some hv, by simpa using List.find?_some hv⟩

theorem declared_of_methodBinding? (hs : s.Own) {x : String} {b : Binding}
    (h : s.methodBinding? x = some b) : x ∈ s.symbols.declaredNames := by
  obtain ⟨m, hm, -⟩ := Option.bind_eq_some_iff.1 h
  have hin := mem_of_methodBinding? hm h
  exact List.mem_append_right _ (List.mem_flatMap.2 ⟨m, hs m hm, hin⟩)

theorem methodBinding?_of_binding {x : String} {b : Binding} (h : s.binding x = b)
    (hb : (∃ i p, b = .param i p) ∨ ∃ v, b = .local v) : s.methodBinding? x = some b := by
  unfold binding at h
  split at h
  · next he => rw [he, h]
  · split at h
    · rcases hb with ⟨_, _, rfl⟩ | ⟨_, rfl⟩ <;> exact absurd h nofun
    · rcases hb with ⟨_, _, rfl⟩ | ⟨_, rfl⟩ <;> split_ifs at h

theorem param?_of_binding {m : Signature} (hm : s.method = some m) {x : String} {i : Nat}
    {q : Parameter} (h : s.binding x = .param i q) : m.param? x = some (i, q) := by
  have hb := methodBinding?_of_binding h (.inl ⟨i, q, rfl⟩)
  simp only [methodBinding?, hm, Option.bind_some] at hb
  split at hb
  · next j r hr =>
    obtain ⟨rfl, rfl⟩ := Binding.param.inj (Option.some.inj hb)
    exact hr
  · obtain ⟨v, -, hv⟩ := Option.map_eq_some_iff.1 hb
    exact absurd hv nofun

theorem local?_of_binding {x : String} {v : Symbol} (h : s.binding x = .local v) :
    ∃ m, s.method = some m ∧ m.local? x = some v := by
  have hb := methodBinding?_of_binding h (.inr ⟨v, rfl⟩)
  obtain ⟨m, hm, hb⟩ := Option.bind_eq_some_iff.1 hb
  split at hb
  · exact absurd (Option.some.inj hb) nofun
  · obtain ⟨v', hv, heq⟩ := Option.map_eq_some_iff.1 hb
    obtain rfl := Binding.local.inj heq
    exact ⟨m, hm, hv⟩

theorem field?_of_binding {x : String} {f : Symbol} (h : s.binding x = .field f) :
    s.symbols.field? x = some f := by
  unfold binding methodBinding? at h
  split at h
  · next b hb =>
    obtain ⟨m, -, hm⟩ := Option.bind_eq_some_iff.1 hb
    subst h
    split at hm
    · exact absurd (Option.some.inj hm) nofun
    · obtain ⟨v, -, hv⟩ := Option.map_eq_some_iff.1 hm
      exact absurd hv nofun
  · split at h
    · next hf => rw [hf, Binding.field.inj h]
    · split_ifs at h

theorem realizes_lowerIdent (hs : s.Own) (id : Ident) (hint : Option ValType) :
    Realizes I s σ Anywhere (s.lowerIdent id hint) (s.evalIdent I σ id.name) (Holds I s) := by
  have hread (ty : ValType) : Realizes I s σ Anywhere (s.readField id.name ty)
      (I.readField id.name) (Holds I s) := realizes_toTemp fun _ _ _ _ ↦ rfl
  have hvar {a : Operand} (hb : s.methodBinding? id.name = some (s.binding id.name))
      (ha : ∀ n, a.Settled s n = ¬ s.LaterTemp n id.name)
      (he : ∀ ρ, a.eval (.ofSource I) ρ = pure (ρ id.name)) :
      Realizes I s σ Anywhere (pure a) (pure (σ id.name)) (Holds I s) := by
    have hd := declared_of_methodBinding? hs hb
    refine .pure fun n ρ hρ _ ↦ ⟨?_, (he ρ).trans (congrArg _ (hρ _ hd))⟩
    rw [ha n]
    exact not_laterTemp_of_declared hd
  unfold lowerIdent evalIdent
  cases hb : s.binding id.name with
  | param i p =>
    exact hvar (methodBinding?_of_binding rfl (.inl ⟨i, p, hb⟩)) (fun _ ↦ rfl) fun _ ↦ rfl
  | «local» v =>
    exact hvar (methodBinding?_of_binding rfl (.inr ⟨v, hb⟩)) (fun _ ↦ rfl) fun _ ↦ rfl
  | field f => exact hread _
  | inherited => exact hread _
  | cls => exact .pure fun _ _ _ _ ↦ ⟨trivial, rfl⟩
  | undeclared => exact .unsupported_bind

theorem realizes_unary {x : Lower Operand} {act : Effect W V} {f : V → Effect W V}
    {ty : Operand → ValType} {rhs : Operand → Rhs} (hx : Realizes I s σ Anywhere x act (Holds I s))
    (h : ∀ a v ρ, a.eval (.ofSource I) ρ = pure v → (rhs a).eval (.ofSource I) ρ = f v) :
    Realizes I s σ Anywhere (x >>= fun a ↦ s.toTemp (ty a) (rhs a)) (act >>= f) (Holds I s) :=
  hx.bind fun a v ↦ realizes_toTemp fun _ ρ _ hp ↦ h a v ρ hp.eval_eq

theorem realizes_binary {x y : Lower Operand} {actx acty : Effect W V} {f : V → V → Effect W V}
    {ty : Operand → ValType} {rhs : Operand → Operand → Rhs}
    (hx : Realizes I s σ Anywhere x actx (Holds I s))
    (hy : Realizes I s σ Anywhere y acty (Holds I s))
    (h : ∀ a b u v ρ, a.eval (.ofSource I) ρ = pure u → b.eval (.ofSource I) ρ = pure v →
      (rhs a b).eval (.ofSource I) ρ = f u v) :
    Realizes I s σ Anywhere (x >>= fun a ↦ y >>= fun b ↦ s.toTemp (ty a) (rhs a b))
      (actx >>= fun u ↦ acty >>= f u) (Holds I s) :=
  hx.bind fun a u ↦ (hy.keep (Holds.stable a u)).bind fun b v ↦ realizes_toTemp fun _ ρ _ hp ↦
    h a b u v ρ hp.1.eval_eq hp.2.eval_eq

def readyCall (I : Interp V W) (s : Scope) (recv : Expr) (method : Ident) (args : List Expr)
    (actr : Effect W V) (acts : List (Effect W V)) : Effect W (Effect W V) :=
  let target := s.target? recv method.name
  match s.className? recv with
  | some cls => do
    let vs ← s.evalArgs I target args acts
    return I.callStatic cls method.name vs
  | none => do
    let r ← actr
    let vs ← s.evalArgs I target args acts
    return I.callVirtual r method.name vs

theorem eval_call (recv : Expr) (method : Ident) (args : List Expr) (pos : Position) :
    s.eval I σ (.call recv method args pos) =
      s.readyCall I recv method args (s.eval I σ recv) (s.evalEach I σ args) >>= id := by
  unfold readyCall
  rw [eval]
  cases s.className? recv <;> simp only [bind_assoc, pure_bind, id]

theorem realizes_lowerCallWith {recv : Expr} {method : Ident} {args : List Expr}
    {hint : Option ValType} {r : Lower Operand} {xs : List (Option ValType → Lower Operand)}
    {actr : Effect W V} {acts : List (Effect W V)}
    (hr : Realizes I s σ Anywhere r actr (Holds I s)) (h : RealizeAll I s σ xs acts)
    (hlen : xs.length < 2 ^ 31) :
    Realizes I s σ Anywhere (s.lowerCallWith recv method args hint r xs)
      (s.readyCall I recv method args actr acts)
      fun c call _ ρ ↦ c.eval (.ofSource I) ρ = call := by
  have hargs := realizes_lowerArgs h hlen (s.target? recv method.name) args
  unfold lowerCallWith readyCall
  cases s.className? recv with
  | some cls =>
    refine hargs.bind fun as vs ↦ .pure fun n ρ _ hp ↦ ?_
    simp only [Call.eval, hp.evalAll_eq, pure_bind]
    rfl
  | none =>
    refine hr.bind fun a v ↦ (hargs.keep (Holds.stable a v)).bind fun as vs ↦ ?_
    refine .pure fun n ρ _ hp ↦ ?_
    simp only [Call.eval, hp.1.eval_eq, hp.2.evalAll_eq, pure_bind]
    rfl

theorem exec_special {a : Operand} {v : V} {ρ : Store V} (ret : ValType)
    (h : a.eval (.ofSource I) ρ = pure v) (w : W) :
    (Instr.call ⟨.special a, ret⟩).exec (.ofSource I) ρ w =
      .after (I.construct v) ρ w fun _ w' ↦ .next ρ w' := by
  have hcall : (Call.mk (.special a) ret).eval (.ofSource I) ρ =
      I.construct v >>= fun _ ↦ pure v := by
    simp only [Call.eval, h, pure_bind]
    cases a <;> rfl
  simp only [Instr.exec, Flow.after, hcall]
  cases hw : I.construct v w with
  | done _ w' => rw [Effect.bind_done hw, Effect.pure_apply]
  | abort w' => rw [Effect.bind_abort hw]

theorem realizes_lowerNewObject (cls : Ident) (pos : Position) :
    Realizes I s σ Anywhere (s.lowerNewObject cls pos)
      (do let object ← I.newObject cls.name; I.construct object; return object) (Holds I s) := by
  have hcreate : Realizes I s σ Anywhere (s.createObject cls.name)
      (do let object ← I.newObject cls.name; I.construct object; return object) (Holds I s) := by
    have hnew : Realizes I s σ Anywhere
        (s.toTemp (.cls cls.name) (.call ⟨.new cls.name, .cls cls.name⟩)) (I.newObject cls.name)
        (Holds I s) := realizes_toTemp fun _ _ _ _ ↦ rfl
    refine hnew.bind fun a v ↦ ?_
    have hinit : Realizes I s σ (Holds I s a v) (Lower.emit (.call ⟨.special a, .void⟩))
        (I.construct v) fun _ _ ↦ Holds I s a v :=
      .emit fun n ρ w _ hp ↦ exec_special .void hp.eval_eq w
    exact hinit.bind fun _ _ ↦ .pure fun _ _ _ hp ↦ hp
  rw [s.lowerNewObject_eq]
  split
  · exact hcreate
  · exact .unsupported_bind

theorem realizeAll_lowerEach {es : List Expr} (h : ∀ e ∈ es, ∀ hint,
    Realizes I s σ Anywhere (s.lower e hint) (s.eval I σ e) (Holds I s)) :
    RealizeAll I s σ (s.lowerEach es) (s.evalEach I σ es) := by
  rw [s.lowerEach_eq_map, evalEach_eq_map, RealizeAll, List.forall₂_map_left_iff,
    List.forall₂_map_right_iff, List.forall₂_same]
  exact h

theorem realizes_lowerCall {recv : Expr} {args : List Expr} (h : ∀ e ∈ recv :: args, ∀ hint,
    Realizes I s σ Anywhere (s.lower e hint) (s.eval I σ e) (Holds I s))
    (hlen : args.length < 2 ^ 31) (method : Ident) (hint : Option ValType) :
    Realizes I s σ Anywhere (s.lowerCall recv method args hint)
      (s.readyCall I recv method args (s.eval I σ recv) (s.evalEach I σ args))
      fun c call _ ρ ↦ c.eval (.ofSource I) ρ = call := by
  have hargs := realizeAll_lowerEach fun e he ↦ h e (List.mem_cons_of_mem _ he)
  refine realizes_lowerCallWith (h recv List.mem_cons_self none) hargs ?_
  rwa [s.lowerEach_eq_map, List.length_map]

/-- Code that is generated for an expression does what the expression means. -/
theorem realizes_lower (hs : s.Own) {e : Expr} (he : e.Everywhere Expr.Countable)
    (hint : Option ValType) :
    Realizes I s σ Anywhere (s.lower e hint) (s.eval I σ e) (Holds I s) := by
  induction e using Expr.children_induction generalizing hint with
  | step e ih =>
    have hin {c : Expr} (hc : c ∈ e.children) (hint : Option ValType) :
        Realizes I s σ Anywhere (s.lower c hint) (s.eval I σ c) (Holds I s) :=
      ih c hc (he.inside c hc) hint
    cases e with
    | int v pos => exact .pure fun _ _ _ _ ↦ ⟨trivial, rfl⟩
    | bool b pos => exact .pure fun _ _ _ _ ↦ ⟨trivial, by cases b <;> rfl⟩
    | ident id => exact realizes_lowerIdent hs id hint
    | this pos => exact .pure fun _ _ _ _ ↦ ⟨trivial, rfl⟩
    | binary op left right pos =>
      have hl (hint : Option ValType) := hin (c := left) (by simp [Expr.children]) hint
      have hr (hint : Option ValType) := hin (c := right) (by simp [Expr.children]) hint
      cases op with
      | arith op =>
        exact realizes_binary (hl _) (hr _) fun _ _ _ _ _ hu hv ↦ by
          simp only [Rhs.eval, hu, hv, pure_bind]
          rfl
      | less =>
        exact realizes_binary (hl _) (hr _) fun _ _ _ _ _ hu hv ↦ by
          simp only [Rhs.eval, hu, hv, pure_bind]
          rfl
      | and => exact realizes_lowerAnd (hl _) (hr _) (Lower.grows.lowerExpr s right _)
    | not e pos =>
      exact realizes_unary (hin (by simp [Expr.children]) _) fun _ _ _ hv ↦ by
        simp only [Rhs.eval, hv, pure_bind]
        rfl
    | paren inner pos => exact hin (c := inner) (by simp [Expr.children]) hint
    | index base idx pos =>
      exact realizes_binary (hin (by simp [Expr.children]) _) (hin (by simp [Expr.children]) _)
        fun _ _ _ _ _ hu hv ↦ by
          simp only [Rhs.eval, Operand.eval, hu, hv, pure_bind]
          rfl
    | length base pos =>
      exact realizes_unary (hin (by simp [Expr.children]) _) fun _ _ _ hv ↦ by
        simp only [Rhs.eval, Call.eval, hv, pure_bind]
        rfl
    | call recv method args pos =>
      have hargs : args.length < 2 ^ 31 := he.here
      have hready := realizes_lowerCall (fun c hc ↦ hin hc) hargs method hint
      rw [eval_call]
      exact hready.bind fun c call ↦ realizes_toTemp fun _ _ _ hp ↦ hp
    | newObject cls pos => exact realizes_lowerNewObject cls pos
    | newArray size pos =>
      exact realizes_unary (hin (by simp [Expr.children]) _) fun _ _ _ hv ↦ by
        simp only [Rhs.eval, Call.eval, hv, pure_bind]
        rfl
    | array elems pos =>
      have helems : elems.length < 2 ^ 31 := he.here
      have hlen : (s.lowerEach elems).length < 2 ^ 31 := by
        rwa [s.lowerEach_eq_map, List.length_map]
      have hall : RealizeAll I s σ (s.lowerEach elems) (s.evalEach I σ elems) :=
        realizeAll_lowerEach fun c hc ↦ hin hc
      have hcount : (s.evalEach I σ elems).length = elems.length := by
        rw [evalEach_eq_map, List.length_map]
      rw [eval, Interp.arrayOf, hcount]
      refine (realizes_allocate (.array (s.literalElement elems)) helems).bind fun a v ↦ ?_
      exact (realizes_storeFrom hall a v _ 0 (by omega)).bind fun _ _ ↦ .pure fun _ _ _ hp ↦ hp

/-- Code for an expression runs to its end just where the expression has a value, which the operand
then has, and aborts just where the expression does. -/
theorem lower_correct (I : Interp V W) (hs : s.Own) {e : Expr} (he : e.Everywhere Expr.Countable)
    (hint : Option ValType) (n : Numbering) (hf : (s.lower e hint n).findings = []) {ρ : Store V}
    (ha : s.symbols.Agree ρ σ) (w w' : W) :
    (∀ v, s.eval I σ e w = .done v w' ↔ ∃ ρ',
      Reaches (.ofSource I) (s.lower e hint n).code ⟨0, ρ, w⟩
        ⟨(s.lower e hint n).code.length, ρ', w'⟩ ∧
      s.symbols.Agree ρ' σ ∧ (s.lower e hint n).value.eval (.ofSource I) ρ' w' = .done v w') ∧
    (s.eval I σ e w = .abort w' ↔ ∃ ρ',
      Aborts (.ofSource I) (s.lower e hint n).code ⟨0, ρ, w⟩ ρ' w' ∧ s.symbols.Agree ρ' σ) := by
  have hvalid := ((announced.lowerExpr s e hint).findings_eq_nil_iff n).1 hf
  have hrun := realizes_lower (I := I) (σ := σ) hs he hint n _ 0
    ((labelled.lowerExpr s e hint) n).2.nodup (.whole _) hvalid ρ w ha trivial
  refine ⟨fun v ↦ ⟨fun hv ↦ ?_, ?_⟩, fun hv ↦ ?_, ?_⟩
  · rw [hv] at hrun
    obtain ⟨ρ', hr, hframe, -, hh⟩ := hrun
    exact ⟨ρ', hr.to_pc (Nat.zero_add _), hframe.agree ha, congrFun hh.eval_eq w'⟩
  · rintro ⟨ρ', hr, -, hv⟩
    obtain ⟨u, hu, -, -, hh⟩ := hrun.of_reaches hr
    rw [hh.eval_eq, Effect.pure_apply, Outcome.done.injEq] at hv
    rw [hu, hv.1]
  · rw [hv] at hrun
    obtain ⟨ρ', hab, hframe⟩ := hrun
    exact ⟨ρ', hab, hframe.agree ha⟩
  · rintro ⟨ρ', hab, -⟩
    exact (hrun.of_aborts hab).1

/-- `x < 3 && !false`, where `x` is 2. -/
theorem lower_correct_and :
    let m : Signature := ⟨"m", .void, [], [⟨"x", .int⟩], true, false⟩
    let s : Scope := ⟨{ className := "A", superName := none, methods := [m] }, some m⟩
    let p := Position.point 1 1
    let e := Expr.binary .and (.binary .less (.ident ⟨"x", p⟩) (.int 3 p) p)
      (.not (.bool false p) p) p
    let l := s.lower e none {}
    l.findings = [] ∧ ∃ ρ', Reaches (.ofSource .words) l.code ⟨0, fun _ ↦ 2, ()⟩
        ⟨l.code.length, ρ', ()⟩ ∧
      s.symbols.Agree ρ' (fun _ ↦ 2) ∧ l.value.eval (.ofSource .words) ρ' () = .done 1 () := by
  intro m s p e l
  have hs : s.Own := by
    rintro _ ⟨⟩
    exact List.mem_singleton_self m
  have hless : (Expr.binary .less (.ident ⟨"x", p⟩) (.int 3 p) p).Everywhere Expr.Countable :=
    .two trivial rfl (.leaf trivial rfl) (.leaf trivial rfl)
  have hnot : (Expr.not (.bool false p) p).Everywhere Expr.Countable :=
    .one trivial rfl (.leaf trivial rfl)
  have he : e.Everywhere Expr.Countable := .two trivial rfl hless hnot
  have hf : l.findings = [] := rfl
  have ha : s.symbols.Agree (fun _ ↦ (2 : Int32)) fun _ ↦ 2 := fun _ _ ↦ rfl
  exact ⟨hf, ((lower_correct .words hs he none {} hf ha () ()).1 1).1 rfl⟩

end Scope

end MiniJava

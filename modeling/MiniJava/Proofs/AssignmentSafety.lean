import MiniJava.Proofs.Checking.Throughout
import MiniJava.Proofs.LabelSafety
import MiniJava.Proofs.Lowering.Knowing
import MiniJava.Proofs.Semantics.TacPaths

namespace MiniJava

open Tac Lower

namespace Scope

def localNames (s : Scope) : List String := s.method.elim [] fun m ↦ m.locals.map (·.name)

variable {s : Scope} {K : List String} {known : List Operand}

theorem mem_localNames {x : String} {v : Symbol} (h : s.binding x = .local v) :
    x ∈ s.localNames := by
  obtain ⟨m, hm, hv⟩ := local?_of_binding h
  rw [localNames, hm, Option.elim_some]
  exact List.mem_map.2 ⟨v, List.mem_of_find?_eq_some hv, by simpa using List.find?_some hv⟩

theorem Formed.ready {y : Operand} (h : s.Formed (fun _ ↦ False) known y)
    (hK : s.localNames ⊆ K) (hk : ∀ z ∈ known, z.Ready K) : y.Ready K := by
  induction h with
  | known hy => exact hk _ hy
  | stored hy =>
    obtain ⟨i, p, -, rfl⟩ | ⟨v, hb, rfl⟩ := storage_cases hy
    · exact fun x t hx ↦ absurd (List.mem_singleton.1 hx) nofun
    · intro x t hx
      obtain ⟨rfl, -⟩ := Operand.var.inj (List.mem_singleton.1 hx)
      exact hK (mem_localNames hb)
  | loose t hno => exact hno.elim
  | elem t _ _ iha ihi =>
    intro x t hx
    rcases List.mem_append.1 ((List.mem_cons.1 hx).resolve_left nofun) with hx | hx
    · exact iha x t hx
    · exact ihi x t hx
  | lit | this | cls => exact fun x t hx ↦ absurd (List.mem_singleton.1 hx) nofun

end Scope

/-- Where the known operands are ready, all that the code reads is, and so are the operands that the
result gives. -/
def Lower.Readies {α : Type} (s : Scope) (known : List Operand) (x : Lower α)
    (gives : α → List Operand) : Prop :=
  ∀ n K, s.localNames ⊆ K → (∀ y ∈ known, y.Ready K) → ∃ entries K', K ⊆ K' ∧
    entries.map Prod.fst = labelNames (x n).code ∧ Assigns entries K (x n).code K' ∧
    ∀ y ∈ gives (x n).value, y.Ready K'

namespace Lower.Readies

variable {α β : Type} {s : Scope} {known : List Operand} {x : Lower α} {gives : α → List Operand}

theorem pure {a : α} (h : ∀ y ∈ gives a, s.Formed (fun _ ↦ False) known y) :
    Readies s known (Pure.pure a) gives := fun _ K hK hk ↦
  ⟨[], K, List.Subset.refl K, rfl, .done (List.Subset.refl K), fun y hy ↦ (h y hy).ready hK hk⟩

theorem bind {f : α → Lower β} {gives' : β → List Operand} (hx : Readies s known x gives)
    (hf : ∀ a, Readies s (gives a ++ known) (f a) gives') : Readies s known (x >>= f) gives' := by
  intro n K hK hk
  obtain ⟨entries, K₁, hsub, hnames, hcode, hvalue⟩ := hx n K hK hk
  have hknown : ∀ y ∈ gives (x n).value ++ known, y.Ready K₁ :=
    List.forall_mem_append.2 ⟨hvalue, fun y hy ↦ (hk y hy).mono hsub⟩
  obtain ⟨entries', K₂, hsub', hnames', hcode', hvalue'⟩ :=
    hf _ (x n).next K₁ (List.Subset.trans hK hsub) hknown
  refine ⟨entries ++ entries', K₂, List.Subset.trans hsub hsub', ?_, ?_, hvalue'⟩
  · rw [List.map_append, hnames, hnames', code_bind, labelNames_append]
  · exact (hcode.mono (List.subset_append_left _ _)).append
      (hcode'.mono (List.subset_append_right _ _))

theorem emit {i : Instr} (hl : i.label? = none) (ht : i.target? = none)
    (h : ∀ y ∈ i.operands, s.Formed (fun _ ↦ False) known y) :
    Readies s known (Lower.emit i) fun _ ↦ [] := by
  intro n K hK hk
  refine ⟨[], K, List.Subset.refl K, by simp [hl], ?_, nofun⟩
  have hreads := Instr.ready_reads fun y hy ↦ (h y hy).ready hK hk
  exact .plain hl ht hreads (List.subset_append_right _ _) (.done (List.Subset.refl K))

theorem assignFresh {stem : String} {ty : ValType} {rhs : Rhs}
    (h : ∀ y ∈ rhs.operands, s.Formed (fun _ ↦ False) known y) :
    Readies s known (s.assignFresh stem ty rhs) fun y ↦ [y] := by
  intro n K hK hk
  let x := (freshName s.symbols.declaredNames stem n).value
  have hcode : (s.assignFresh stem ty rhs n).code = [.assign (.var x ty) ty rhs] := rfl
  refine ⟨[], x :: K, List.subset_cons_self x K, rfl, ?_, ?_⟩
  · rw [hcode]
    exact .assign (fun y hy ↦ (h y hy).ready hK hk) (List.Subset.refl _)
      (.done (List.Subset.refl _))
  · exact List.forall_mem_singleton.2 (.var List.mem_cons_self)

theorem unsupported (what : String) (pos : Position) :
    Readies s known (Lower.unsupported what pos) fun _ ↦ [] := fun _ K _ _ ↦
  ⟨[], K, List.Subset.refl K, rfl,
    .plain rfl rfl nofun (List.Subset.refl K) (.done (List.Subset.refl K)), nofun⟩

theorem lowerAnd {left right : Lower Operand} (hl : ∀ known, Readies s known left fun y ↦ [y])
    (hr : ∀ known, Readies s known right fun y ↦ [y]) :
    Readies s known (s.lowerAnd left right) fun y ↦ [y] := by
  intro n K hK hk
  rw [s.lowerAnd_apply]
  let k := (left n).next.label
  let t := s.freshTemp .bool { (left n).next with label := k + 1 }
  let x := (freshName s.symbols.declaredNames "tmp" { (left n).next with label := k + 1 }).value
  obtain ⟨entries, K₁, hsub, hnames, hcode, hvalue⟩ := hl known n K hK hk
  obtain ⟨entries', K₂, hsub', hnames', hcode', hvalue'⟩ :=
    hr [] t.next K₁ (List.Subset.trans hK hsub) nofun
  -- Both ways into the end assign the result, and neither need keep what the right side assigns.
  let all := entries ++ (numbered "true_" k, K₁) :: (entries' ++ [(numbered "end_" k, x :: K₁)])
  have hleft : entries ⊆ all := List.subset_append_left _ _
  have hright : entries' ⊆ all := fun e he ↦ by simp [all, he]
  have htrue : (numbered "true_" k, K₁) ∈ all := by simp [all]
  have hend : (numbered "end_" k, x :: K₁) ∈ all := by simp [all]
  have hrest : Assigns all K₁ (.label (numbered "true_" k) :: ((right t.next).code ++
      [.assign (.var x .bool) .bool (.value (right t.next).value), .label (numbered "end_" k)]))
      (x :: K₁) :=
    .label htrue (List.Subset.refl K₁) <| (hcode'.mono hright).append <|
      .assign hvalue' (List.cons_subset_cons x hsub') <|
      .label hend (List.Subset.refl _) (.done (List.Subset.refl _))
  refine ⟨all, x :: K₁, List.subset_cons_of_subset x hsub, ?_, ?_, ?_⟩
  · simp [all, hnames, hnames', Instr.label?, k, t]
  · exact (hcode.mono hleft).append <| .branch hvalue htrue (List.Subset.refl K₁) <|
      .assign (List.forall_mem_singleton.2 (.lit _ _)) (List.Subset.refl (x :: K₁)) <|
      .goto hend (List.Subset.refl _) hrest
  · exact List.forall_mem_singleton.2 (.var List.mem_cons_self)

section

variable {cond : Expr} {body other : Lower Unit}
  (hc : ∀ known, Readies s known (s.lowerCond cond) Cond.operands)
  (hb : ∀ known, Readies s known body fun _ ↦ [])

include hc hb

theorem lowerIf (ho : ∀ known, Readies s known other fun _ ↦ []) :
    Readies s known (s.lowerIf cond body other) fun _ ↦ [] := by
  intro n K hK hk
  rw [s.lowerIf_apply]
  let k := n.label
  let c := s.lowerCond cond { n with label := k + 1 }
  let b := body c.next
  obtain ⟨ec, K₁, hsub, hnc, hcode, hvalue⟩ := hc known { n with label := k + 1 } K hK hk
  have hK₁ := List.Subset.trans hK hsub
  obtain ⟨eb, K₂, hsub₂, hnb, hbody, -⟩ := hb [] c.next K₁ hK₁ nofun
  obtain ⟨eo, K₃, hsub₃, hno, hother, -⟩ := ho [] b.next K₁ hK₁ nofun
  -- What is assigned on one side only does not count after both.
  let all := ec ++ (numbered "if" k, K₁) ::
    (eb ++ (numbered "else" k, K₁) :: (eo ++ [(numbered "endif" k, K₁)]))
  have hcond : ec ⊆ all := List.subset_append_left _ _
  have hbsub : eb ⊆ all := fun e he ↦ by simp [all, he]
  have hosub : eo ⊆ all := fun e he ↦ by simp [all, he]
  have hif : (numbered "if" k, K₁) ∈ all := by simp [all]
  have helse : (numbered "else" k, K₁) ∈ all := by simp [all]
  have hend : (numbered "endif" k, K₁) ∈ all := by simp [all]
  refine ⟨all, K₁, hsub, ?_, ?_, nofun⟩
  · simp [all, hnc, hnb, hno, Instr.label?, k, c, b]
  · exact (hcode.mono hcond).append <| .branch hvalue hif (List.Subset.refl K₁) <|
      .goto helse (List.Subset.refl K₁) <| .label hif (List.Subset.refl K₁) <|
      (hbody.mono hbsub).append <| .goto hend hsub₂ <| .label helse (List.Subset.refl K₁) <|
      (hother.mono hosub).append <| .label hend hsub₃ (.done (List.Subset.refl K₁))

theorem lowerWhile : Readies s known (s.lowerWhile cond body) fun _ ↦ [] := by
  intro n K hK hk
  rw [s.lowerWhile_apply]
  let k := n.label
  let c := s.lowerCond cond { n with label := k + 1 }
  let b := body c.next
  obtain ⟨ec, K₁, hsub, hnc, hcode, hvalue⟩ := hc known { n with label := k + 1 } K hK hk
  have hK₁ := List.Subset.trans hK hsub
  obtain ⟨eb, K₂, hsub₂, hnb, hbody, -⟩ := hb [] c.next K₁ hK₁ nofun
  obtain ⟨ea, K₃, hsub₃, hna, hagain, hvalue'⟩ :=
    hc [] b.next K₂ (List.Subset.trans hK₁ hsub₂) nofun
  -- Each round starts from what the first test assigned, and so does what follows the loop.
  let all := ec ++ (numbered "whilebody_" k, K₁) :: (eb ++ (ea ++ [(numbered "endwhile_" k, K₁)]))
  have hcond : ec ⊆ all := List.subset_append_left _ _
  have hbsub : eb ⊆ all := fun e he ↦ by simp [all, he]
  have hasub : ea ⊆ all := fun e he ↦ by simp [all, he]
  have hstart : (numbered "whilebody_" k, K₁) ∈ all := by simp [all]
  have hend : (numbered "endwhile_" k, K₁) ∈ all := by simp [all]
  have hback : K₁ ⊆ K₃ := List.Subset.trans hsub₂ hsub₃
  refine ⟨all, K₁, hsub, ?_, ?_, nofun⟩
  · simp [all, hnc, hnb, hna, Instr.label?, k, c, b]
  · exact (hcode.mono hcond).append <| .branch hvalue hstart (List.Subset.refl K₁) <|
      .goto hend (List.Subset.refl K₁) <| .label hstart (List.Subset.refl K₁) <|
      (hbody.mono hbsub).append <| (hagain.mono hasub).append <|
      .branch hvalue' hstart hback <| .label hend hback (.done (List.Subset.refl K₁))

end

end Lower.Readies

/-- Without undeclared variables, all that code reads is a local variable or has been assigned. -/
theorem Scope.knowing_readies {s : Scope} : Knowing s (fun _ ↦ False) (Readies s) where
  pure := .pure
  bind := .bind
  emit := .emit
  assign _ := .assignFresh
  unsupported := .unsupported
  and := .lowerAnd
  ite := .lowerIf
  loop := .lowerWhile

theorem assigns_closeBody {entries : List (String × List String)} {K K' : List String}
    {ret : ValType} {code : List Instr} (h : Assigns entries K code K') :
    Assigns entries K (closeBody ret code) K' := by
  unfold closeBody
  split
  · exact h.append (.plain rfl rfl nofun (List.Subset.refl _) (.done (List.Subset.refl _)))
  · exact h

namespace Program

variable {p : Program}

theorem exists_assigns {m : MethodDecl} (hm : m ∈ p.cls.methods)
    (h : ∀ name pos, .located (.undeclaredVariable name) pos ∉ p.check) (n : Numbering) :
    ∃ entries, (entries.map Prod.fst).Nodup ∧ ∃ K', Assigns entries (p.bodyScope m).localNames
      (m.withBody p.symbols.className (m.lower p.symbols n).code).code K' := by
  obtain ⟨sig, hsig⟩ := method_bodyScope hm
  have hresolves : ∀ e ∈ Stmt.exprsAll m.body,
      e.Everywhere ((p.bodyScope m).Resolves fun _ ↦ False) :=
    fun e he ↦ Scope.everywhere_resolves fun name pos hf ↦ h name pos
      (checkStmts_bodyScope_subset hm (Scope.check_subset_checkStmts hsig m.body e he hf))
  obtain ⟨entries, K', -, hnames, hcode, -⟩ :=
    Scope.knowing_readies.lowerStmts hresolves [] n _ (List.Subset.refl _) nofun
  refine ⟨entries, ?_, K', assigns_closeBody hcode⟩
  rw [hnames]
  exact (m.labelled p.symbols n).2.nodup

/-- In a program without undeclared variables, what an instruction on a path reads has been assigned
on that path, unless it is a local variable of the method. -/
theorem reads_assigned (h : ∀ name pos, .located (.undeclaredVariable name) pos ∉ p.check)
    {tm : Tac.Method} (htm : tm ∈ p.lower.1.methods) {pc : Nat} {done : List Instr}
    (hpath : Path tm.code pc done) {i : Instr} (hi : tm.code[pc]? = some i) {x : String}
    {t : ValType} (hx : .var x t ∈ i.reads)
    (hlocal : ∀ sig, p.symbols.method? tm.name = some sig → x ∉ sig.locals.map (·.name)) :
    ∃ j ∈ done, j.assigned? = some x := by
  rcases List.mem_cons.1 htm with rfl | htm
  · have hno : ∀ i ∈ (Tac.Method.constructor p.symbols.className).code, .var x t ∉ i.reads :=
      List.forall_mem_singleton.2 fun hx ↦ absurd (List.mem_singleton.1 hx) nofun
    exact absurd hx (hno i (List.mem_of_getElem? hi))
  · obtain ⟨m, hm, n, rfl⟩ := mem_lowerMethods htm
    obtain ⟨entries, hn, K', hcode⟩ := exists_assigns hm h n
    refine (hcode.assigned_of_path hn hpath hi hx).resolve_left fun hin ↦ ?_
    obtain ⟨sig, hsig⟩ := method_bodyScope hm
    rw [Scope.localNames, hsig] at hin
    exact hlocal sig hsig hin

/-- `boolean m(boolean a) { return a && a; }`, whose result is assigned on two paths. -/
theorem reads_assigned_and :
    let pos := Position.point 1 1
    let boolean : TypeExpr := ⟨.boolean, false, false, pos⟩
    let a : Ident := ⟨"a", pos⟩
    let m : MethodDecl :=
      { isPublic := true, isStatic := false, ret := boolean, name := ⟨"m", pos⟩, pos
        params := [⟨boolean, a, pos⟩]
        body := [.return (some (.binary .and (.ident a) (.ident a) pos)) pos] }
    let p : Program := ⟨[], ⟨⟨"A", pos⟩, none, [], [m], pos⟩⟩
    let result := Operand.var "tmp0" .bool
    let branch := Instr.branch (.value (.param 0 "a" .bool)) "true_0"
    let left := Instr.assign result .bool (.value (.bool false))
    let right := Instr.assign result .bool (.value (.param 0 "a" .bool))
    p.check = [] ∧ ∃ tm ∈ p.lower.1.methods,
      tm.code = [branch, left, .goto "end_0", .label "true_0", right, .label "end_0",
        .return .bool (some result)] ∧
      Path tm.code 6 [.label "end_0", .goto "end_0", left, branch] ∧
      Path tm.code 6 [.label "end_0", right, .label "true_0", branch] ∧
      ∀ done, Path tm.code 6 done → ∃ j ∈ done, j.assigned? = some "tmp0" := by
  intro pos boolean a m p result branch left right
  have hcheck : p.check = [] := by decide +kernel +zetaReduce
  have hsig : p.symbols.method? "m" = some m.signature := by decide +kernel +zetaReduce
  have hlower : ∃ tm ∈ p.lower.1.methods, tm.name = "m" ∧
      tm.code = [branch, left, .goto "end_0", .label "true_0", right, .label "end_0",
        .return .bool (some result)] := by decide +kernel +zetaReduce
  obtain ⟨tm, htm, hname, hcode⟩ := hlower
  have hbranch : Path tm.code 0 [] := .start
  refine ⟨hcheck, tm, htm, hcode, ?_, ?_, fun done hpath ↦ ?_⟩
  · have hleft := hbranch.fall (i := branch) (by rw [hcode]; rfl) trivial
    have hgoto := hleft.fall (i := left) (by rw [hcode]; rfl) trivial
    have hend := hgoto.jump (k := 5) (i := .goto "end_0") (by rw [hcode]; rfl) rfl
      (by rw [hcode]; rfl)
    exact hend.fall (by rw [hcode]; rfl) trivial
  · have htrue := hbranch.jump (k := 3) (i := branch) (by rw [hcode]; rfl) rfl (by rw [hcode]; rfl)
    have hright := htrue.fall (i := .label "true_0") (by rw [hcode]; rfl) trivial
    have hend := hright.fall (i := right) (by rw [hcode]; rfl) trivial
    exact hend.fall (by rw [hcode]; rfl) trivial
  · have hi : tm.code[6]? = some (.return .bool (some result)) := by rw [hcode]; rfl
    refine reads_assigned (hcheck ▸ fun _ _ ↦ List.not_mem_nil) htm hpath hi (t := .bool)
      (List.mem_singleton_self _) fun sig h ↦ ?_
    obtain rfl := Option.some.inj (hsig.symm.trans (hname ▸ h))
    exact List.not_mem_nil

end Program

end MiniJava

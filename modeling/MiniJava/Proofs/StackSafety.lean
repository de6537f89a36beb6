import MiniJava.Compile
import MiniJava.Proofs.Assembly.BodySafe
import MiniJava.Proofs.Checking.Emits

namespace MiniJava

open Tac Lower

theorem Reports.hasErrors_addFindings (rs : Reports) (fs : List Finding) :
    (rs.addFindings fs).hasErrors = (rs.hasErrors || !fs.isEmpty) := by
  cases fs with
  | nil => simp [hasErrors, addFindings]
  | cons f fs => simp [hasErrors, addFindings, Report.isError, Report.ofFinding]

namespace Jasmin

variable {c : Tac.Class} {m : Tac.Method} {b : Body} {ms : List Tac.Method} {n : Nat}

theorem mem_zip_bodies (h : (m, b) ∈ ms.zip (bodies c n ms)) :
    m ∈ ms ∧ b ∈ bodies c n ms ∧ ∃ k, b = body c k m := by
  refine ⟨(List.of_mem_zip h).1, (List.of_mem_zip h).2, ?_⟩
  induction ms generalizing n with
  | nil => exact absurd h List.not_mem_nil
  | cons m' ms ih =>
    rcases List.mem_cons.1 h with h | h
    · obtain ⟨rfl, rfl⟩ := Prod.mk.inj h
      exact ⟨n, rfl⟩
    · exact ih h

end Jasmin

namespace Program

variable {p : Program}

/-- No method of the class is called on a value of unknown type. -/
def Resolved (p : Program) : Prop :=
  ∀ m ∈ p.cls.methods, ∀ e ∈ Stmt.exprsAll m.body, e.Everywhere (p.scope m).Resolved

/-- A program compiles just if no stage has a finding. -/
theorem success_iff : (p.compile {}).success ↔
    p.check = [] ∧ p.lower.2 = [] ∧ (Jasmin.assemble p.lower.1 4).2 = [] := by
  have hempty : ({} : Reports).hasErrors = false := rfl
  by_cases hcheck : p.check = []
  · have hgo : ((Reports.addFindings {} p.check).hasErrors && !({} : Options).generateAnyway) =
        false := by
      rw [hcheck]
      rfl
    simp only [compile, hgo, Output.success]
    simp [Reports.hasErrors_addFindings, hempty, hcheck]
  · have hstop : ((Reports.addFindings {} p.check).hasErrors && !({} : Options).generateAnyway) =
        true := by simp [Reports.hasErrors_addFindings, hempty, hcheck]
    simp only [compile, hstop, Output.success]
    simp [Reports.hasErrors_addFindings, hempty, hcheck]

theorem checkStmts_subset_check {m : MethodDecl} (hn : (p.cls.methods.map (·.name.name)).Nodup)
    (hm : m ∈ p.cls.methods) : (p.scope m).checkStmts m.body ⊆ p.check := by
  intro f hf
  refine List.mem_flatMap.2 ⟨m, hm, ?_⟩
  rw [MethodDecl.check, method?_eq hn hm]
  exact List.mem_append_right _ hf

theorem checkStmts_of_check {m : MethodDecl} (hn : (p.cls.methods.map (·.name.name)).Nodup)
    (h : p.check = []) (hm : m ∈ p.cls.methods) : (p.scope m).checkStmts m.body = [] :=
  List.eq_nil_of_subset_nil (h ▸ checkStmts_subset_check hn hm)

/-- Only an array literal that holds arrays has an unknown type in an accepted program. -/
theorem resolved_of_flat (hn : (p.cls.methods.map (·.name.name)).Nodup) (h : p.check = [])
    (hf : ∀ m ∈ p.cls.methods, ∀ e ∈ Stmt.exprsAll m.body, e.Everywhere (p.scope m).Flat) :
    p.Resolved := by
  intro m hm e he
  have hcheck := Scope.check_exprsAll rfl (checkStmts_of_check hn h hm) e he
  exact Scope.everywhere_resolved hcheck (hf m hm e he)

theorem mem_lowerMethods {t : Symbols} {ms : List MethodDecl} {n : Numbering} {tm : Tac.Method}
    (h : tm ∈ (t.lowerMethods n ms).1) :
    ∃ m ∈ ms, ∃ n', tm = m.withBody t.className (m.lower t n').code := by
  induction ms generalizing n with
  | nil => exact absurd h List.not_mem_nil
  | cons m ms ih =>
    rcases List.mem_cons.1 h with h | h
    · exact ⟨m, List.mem_cons_self, n, h⟩
    · obtain ⟨m', hm', h⟩ := ih h
      exact ⟨m', List.mem_cons_of_mem m hm', h⟩

theorem describes (hn : (p.cls.methods.map (·.name.name)).Nodup) :
    p.symbols.Describes p.lower.1 where
  name := rfl
  method name d hd := by
    have hmem : d ∈ p.lower.1.methods := List.mem_of_find?_eq_some hd
    have hname := List.find?_some hd
    simp only [Bool.and_eq_true, Bool.not_eq_true', beq_iff_eq] at hname
    rcases List.mem_cons.1 hmem with rfl | hmem
    · exact absurd hname.1 nofun
    · obtain ⟨m, hm, n, rfl⟩ := mem_lowerMethods hmem
      refine ⟨m.signature, hname.2 ▸ method?_eq hn hm, ?_, rfl⟩
      simp [MethodDecl.withBody, MethodDecl.signature]

/-- The labels of source blocks are not those of comparisons. -/
theorem apart_of_between {code : List Instr} {a b : Nat} (h : Between a b (labelNames code)) :
    Jasmin.Apart code := by
  intro l hl k
  obtain ⟨stem, hs, j, -, -, rfl⟩ := h.numbered l hl
  have hne : stem ≠ "cmp_true_" ∧ stem ≠ "cmp_end_" := by
    have hall : ∀ s ∈ labelStems, s ≠ "cmp_true_" ∧ s ≠ "cmp_end_" := by decide
    exact hall stem hs
  rw [Jasmin.trueLabel_eq, Jasmin.endLabel_eq, Ne, Ne,
    numbered_inj (plain_of_mem_labelStems hs) (by decide),
    numbered_inj (plain_of_mem_labelStems hs) (by decide)]
  exact ⟨fun h ↦ hne.1 h.1, fun h ↦ hne.2 h.1⟩

theorem targetNames_closeBody {ret : ValType} {code : List Instr} :
    targetNames (closeBody ret code) = targetNames code := by
  unfold closeBody
  split <;> simp [Instr.target?]

theorem forall_closeBody {A : Instr → Prop} {ret : ValType} {code : List Instr}
    (hreturn : ret = .void → A (.return .void none)) (h : ∀ i ∈ code, A i) :
    ∀ i ∈ closeBody ret code, A i := by
  unfold closeBody
  split
  · next hopen =>
    have hvoid : ret = .void := by
      simp only [Bool.and_eq_true, decide_eq_true_eq] at hopen
      exact hopen.1
    exact List.forall_mem_append.2 ⟨h, List.forall_mem_singleton.2 (hreturn hvoid)⟩
  · exact h

theorem sound_closeBody {c : Tac.Class} {ret : ValType} {code : List Instr}
    (h : ∀ i ∈ code, i.Sound c) : ∀ i ∈ closeBody ret code, i.Sound c :=
  forall_closeBody (fun _ ↦ .callless rfl nofun) h

/-- Every method of an accepted program has a safe body, as long as no method of the class is called
on a value of unknown type or on a string that the class is taken for. -/
theorem stack_safe (hn : (p.cls.methods.map (·.name.name)).Nodup) (hs : (p.compile {}).success)
    (hargs : ∀ m ∈ p.lower.1.methods, ∀ i ∈ m.code, ∀ k ∈ i.call?, k.Countable)
    (hr : p.Resolved) (hname : p.cls.name.name ≠ Jasmin.stringPath) :
    ∀ mb ∈ p.lower.1.methods.zip (Jasmin.bodies p.lower.1 0 p.lower.1.methods),
      mb.2.StackSafe := by
  rintro ⟨tm, b⟩ hmb
  obtain ⟨htm, hb, k, rfl⟩ := Jasmin.mem_zip_bodies hmb
  obtain ⟨hcheck, -, hassemble⟩ := success_iff.1 hs
  have hfindings : (Jasmin.body p.lower.1 k tm).findings = [] :=
    List.flatMap_eq_nil_iff.1 hassemble _ hb
  have hargs := hargs tm htm
  rcases List.mem_cons.1 htm with rfl | htm
  -- The constructor runs that of the superclass and nothing else.
  · refine Jasmin.body_stackSafe hfindings (List.forall_mem_singleton.2 ?_) hargs nofun nofun
    exact .call trivial rfl
  · obtain ⟨m, hm, n, rfl⟩ := mem_lowerMethods htm
    have hlower : m.lower p.symbols = (p.scope m).lowerStmts m.body := by
      rw [MethodDecl.lower, method?_eq hn hm]
      rfl
    have hstmts := checkStmts_of_check hn hcheck hm
    have hemits := Scope.emits_lowerStmts (s := p.scope m) (describes hn) hname rfl m.body hstmts
      (hr m hm)
    have hcode : (m.withBody p.symbols.className (m.lower p.symbols n).code).code =
        closeBody (.ofTy m.ret.ty) ((p.scope m).lowerStmts m.body n).code := by
      rw [hlower]
      rfl
    have hlabels := (labelled.lowerStmts (p.scope m) m.body n).2
    have htargets := targeted.lowerStmts (p.scope m) m.body n
    refine Jasmin.body_stackSafe hfindings ?_ hargs ?_ ?_
    · rw [hcode]
      exact sound_closeBody (hemits n)
    · have hapart := apart_of_between hlabels
      rwa [Jasmin.Apart, ← labelNames_closeBody, ← hcode] at hapart
    · rw [hcode, targetNames_closeBody, labelNames_closeBody]
      exact htargets

/-- `int f(int y) { return y + 1; }` and
`int m() { int x; while (x < 3) x = this.f(x); return x; }`. -/
theorem stack_safe_loop :
    let pos := Position.point 1 1
    let int : TypeExpr := ⟨.int, false, false, pos⟩
    let x : Ident := ⟨"x", pos⟩
    let y : Ident := ⟨"y", pos⟩
    let sum := Expr.binary (.arith .add) (.ident y) (.int 1 pos) pos
    let test := Expr.binary .less (.ident x) (.int 3 pos) pos
    let call := Expr.call (.this pos) ⟨"f", pos⟩ [.ident x] pos
    let f : MethodDecl :=
      { isPublic := true, isStatic := false, ret := int, name := ⟨"f", pos⟩
        params := [⟨int, y, pos⟩], body := [.return (some sum) pos], pos }
    let m : MethodDecl :=
      { isPublic := true, isStatic := false, ret := int, name := ⟨"m", pos⟩, params := [], pos
        body := [.var ⟨int, x, pos⟩, .while test (.assign x none call pos) pos,
          .return (some (.ident x)) pos] }
    let p : Program := ⟨[], ⟨⟨"A", pos⟩, none, [], [f, m], pos⟩⟩
    (p.compile {}).success ∧ p.Resolved ∧
      (Jasmin.bodies p.lower.1 0 p.lower.1.methods).map (·.maxDepth) = [1, 2, 2] ∧
        ∀ mb ∈ p.lower.1.methods.zip (Jasmin.bodies p.lower.1 0 p.lower.1.methods),
          mb.2.StackSafe := by
  intro pos int x y sum test call f m p
  have hs : (p.compile {}).success := by decide +kernel +zetaReduce
  have hn : (p.cls.methods.map (·.name.name)).Nodup := by decide +kernel +zetaReduce
  have hargs : ∀ m ∈ p.lower.1.methods, ∀ i ∈ m.code, ∀ k ∈ i.call?, k.Countable := by
    decide +kernel +zetaReduce
  have hr : p.Resolved := by
    refine List.forall_mem_cons.2 ⟨?_, List.forall_mem_singleton.2 ?_⟩
    · exact List.forall_mem_singleton.2 (.two trivial rfl (.leaf trivial rfl) (.leaf trivial rfl))
    · have htest : test.Everywhere (p.scope m).Resolved :=
        .two trivial rfl (.leaf trivial rfl) (.leaf trivial rfl)
      have hcall : call.Everywhere (p.scope m).Resolved :=
        .two (fun _ ↦ nofun) rfl (.leaf trivial rfl) (.leaf trivial rfl)
      exact List.forall_mem_cons.2 ⟨htest, List.forall_mem_cons.2 ⟨hcall,
        List.forall_mem_singleton.2 (.leaf trivial rfl)⟩⟩
  have hname : p.cls.name.name ≠ Jasmin.stringPath := by decide +kernel +zetaReduce
  have hdepths : (Jasmin.bodies p.lower.1 0 p.lower.1.methods).map (·.maxDepth) = [1, 2, 2] := by
    decide +kernel +zetaReduce
  exact ⟨hs, hr, hdepths, stack_safe hn hs hargs hr hname⟩

/-- `void f() { }` and `void m() { [[new A()]][0][0].f(7); [[new A()]][0][0].f(7); }`, where each
call leaves a value behind. -/
theorem stack_unsafe_unresolved :
    let pos := Position.point 1 1
    let void : TypeExpr := ⟨.void, false, false, pos⟩
    let made := Expr.array [.array [.newObject ⟨"A", pos⟩ pos] pos] pos
    let recv := Expr.index (.index made (.int 0 pos) pos) (.int 0 pos) pos
    let call := Stmt.expr (.call recv ⟨"f", pos⟩ [.int 7 pos] pos) pos
    let f : MethodDecl :=
      { isPublic := true, isStatic := false, ret := void, name := ⟨"f", pos⟩, params := []
        body := [], pos }
    let m : MethodDecl := { f with name := ⟨"m", pos⟩, body := [call, call] }
    let p : Program := ⟨[], ⟨⟨"A", pos⟩, none, [], [f, m], pos⟩⟩
    (p.cls.methods.map (·.name.name)).Nodup ∧ (p.compile {}).success ∧
      (∀ m ∈ p.lower.1.methods, ∀ i ∈ m.code, ∀ k ∈ i.call?, k.Countable) ∧
      p.cls.name.name ≠ Jasmin.stringPath ∧
      ¬ ∀ mb ∈ p.lower.1.methods.zip (Jasmin.bodies p.lower.1 0 p.lower.1.methods),
        mb.2.StackSafe := by
  intro pos void made recv call f m p
  refine ⟨by decide +kernel +zetaReduce, by decide +kernel +zetaReduce,
    by decide +kernel +zetaReduce, by decide +kernel +zetaReduce, fun hsafe ↦ ?_⟩
  have hdeep : ∃ mb ∈ p.lower.1.methods.zip (Jasmin.bodies p.lower.1 0 p.lower.1.methods),
      mb.2.maxDepth = 3 ∧ Jasmin.depthAfter? (mb.2.lines.take 42) 0 = some 4 := by
    decide +kernel +zetaReduce
  obtain ⟨⟨m, b⟩, hmb, hmax, hdepth⟩ := hdeep
  have hat : At b.lines 0 (b.lines.take 42) := ⟨[], b.lines.drop 42, by simp, rfl⟩
  have hle := (hsafe _ hmb).le_max (Jasmin.Visits.start.pass hat hdepth)
  have hlt : ¬ (4 : Int) ≤ 3 := by decide
  exact hlt (hmax ▸ hle)

end Program

end MiniJava

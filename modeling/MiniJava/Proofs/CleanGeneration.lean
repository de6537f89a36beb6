import MiniJava.Proofs.Checking.Usable
import MiniJava.Proofs.Lowering.Findings
import MiniJava.Proofs.Lowering.Silence

namespace MiniJava

open Tac Lower

namespace Program

variable {p : Program} {m : MethodDecl}

/-- Throughout the program, values are used only where there are any. -/
def Generable (p : Program) : Prop :=
  ∀ m ∈ p.cls.methods, ∀ stmt ∈ m.body,
    (p.bodyScope m).StmtThroughout (p.bodyScope m).Usable (p.bodyScope m).Allowed stmt

theorem param_of_binding (hn : (p.cls.methods.map (·.name.name)).Nodup) (hm : m ∈ p.cls.methods)
    {name : String} {i : Nat} {q : Parameter} (h : (p.bodyScope m).binding name = .param i q) :
    name ∈ (m.params.map ParamDecl.var).map (·.name) := by
  have hmethod : (p.bodyScope m).method = some m.signature := method?_eq hn hm
  obtain ⟨hmem, rfl⟩ := Signature.mem_of_param? (Scope.param?_of_binding hmethod h)
  obtain ⟨d, hd, rfl⟩ := List.mem_map.1 hmem
  exact List.mem_map.2 ⟨d.var, List.mem_map_of_mem hd, rfl⟩

theorem issued_lower (h : p.check = []) (hg : p.Generable) (hm : m ∈ p.cls.methods)
    (n : Numbering) : ∀ i ∈ (m.lower p.symbols n).code,
      (p.bodyScope m).Issued (p.bodyScope m).Clean (p.bodyScope m).CleanStmt i := by
  obtain ⟨sig, hsig⟩ := method_bodyScope hm
  have hchecked := Scope.checkedStmts_throughout (P := fun _ ↦ True) hsig m.body
    (checkStmts_bodyScope h hm) fun e _ ↦ .of_forall (fun _ ↦ trivial) e
  exact Scope.issues_lowerStmts (fun x hx ↦ (hchecked x hx).clean (hg m hm x hx)) n

theorem findings_lowerMethods {t : Symbols} {ms : List MethodDecl}
    (h : ∀ m ∈ ms, ∀ n, (m.lower t n).findings = []) (n : Numbering) :
    (t.lowerMethods n ms).2 = [] := by
  have hsilent : ∀ m ∈ ms, (m.lower t).SilentIff True :=
    fun m hm ↦ ⟨fun n ↦ iff_of_true (h m hm n) trivial⟩
  exact (Symbols.findings_lowerMethods_iff hsilent n).2 fun _ _ ↦ trivial

/-- A program that the checker accepts compiles, as long as it uses values only where there are
any. -/
theorem compiles (hn : (p.cls.methods.map (·.name.name)).Nodup) (h : p.check = [])
    (hg : p.Generable) : (p.compile {}).success := by
  refine success_iff.2 ⟨h, findings_lowerMethods (fun m hm n ↦ ?_) {}, ?_⟩
  · obtain ⟨sig, hsig⟩ := method_bodyScope hm
    have hannounced := announced.lowerStmts (p.bodyScope m) m.body
    refine (hannounced.findings_eq_nil_iff n).2 fun what hwhat ↦ ?_
    exact (issued_lower h hg hm n _ hwhat).not_invalid hsig what rfl
  · refine List.flatMap_eq_nil_iff.2 fun b hb ↦ ?_
    obtain ⟨tm, htm, k, rfl⟩ := Jasmin.mem_bodies hb
    rcases List.mem_cons.1 htm with rfl | htm
    -- The constructor runs that of the superclass and nothing else.
    · have hslots : (Tac.Method.constructor p.cls.name.name).slots = .ofCode (some p.cls.name.name)
          [] (Tac.Method.constructor p.cls.name.name).code := rfl
      refine Jasmin.findings_body_of_expressible hslots ?_ ?_
      · exact List.forall_mem_singleton.2 (.of_super _)
      · exact List.forall_mem_singleton.2 rfl
    · obtain ⟨m, hm, n, rfl⟩ := mem_lowerMethods htm
      obtain ⟨sig, hsig⟩ := method_bodyScope hm
      have hissued := issued_lower h hg hm n
      have hreturn : (Instr.return .void none).Fed := rfl
      refine Jasmin.findings_body_of_expressible rfl ?_ ?_
      · exact forall_closeBody (fun _ ↦ .of_return) fun i hi ↦ (hissued i hi).expressible hsig
          fun _ _ _ ↦ param_of_binding hn hm
      · exact forall_closeBody (fun _ ↦ hreturn) fun i hi ↦ (hissued i hi).fed hsig

/-- `int f(int y) { return y + 1; }` and
`int m() { int x; while (x < 3) x = this.f(x); io.println(x); return x; }`. -/
theorem compiles_loop :
    let pos := Position.point 1 1
    let int : TypeExpr := ⟨.int, false, false, pos⟩
    let x : Ident := ⟨"x", pos⟩
    let y : Ident := ⟨"y", pos⟩
    let io : Ident := ⟨"io", pos⟩
    let sum := Expr.binary (.arith .add) (.ident y) (.int 1 pos) pos
    let test := Expr.binary .less (.ident x) (.int 3 pos) pos
    let call := Expr.call (.this pos) ⟨"f", pos⟩ [.ident x] pos
    let print := Expr.call (.ident io) ⟨"println", pos⟩ [.ident x] pos
    let f : MethodDecl :=
      { isPublic := true, isStatic := false, ret := int, name := ⟨"f", pos⟩
        params := [⟨int, y, pos⟩], body := [.return (some sum) pos], pos }
    let m : MethodDecl :=
      { isPublic := true, isStatic := false, ret := int, name := ⟨"m", pos⟩, params := [], pos
        body := [.var ⟨int, x, pos⟩, .while test (.assign x none call pos) pos, .expr print pos,
          .return (some (.ident x)) pos] }
    let p : Program := ⟨[["io"]], ⟨⟨"A", pos⟩, none, [], [f, m], pos⟩⟩
    p.check = [] ∧ p.Generable ∧ (p.compile {}).success := by
  intro pos int x y io sum test call print f m p
  have hn : (p.cls.methods.map (·.name.name)).Nodup := by decide +kernel +zetaReduce
  have h : p.check = [] := by decide +kernel +zetaReduce
  have hsum : (p.bodyScope f).Throughout (p.bodyScope f).Usable sum (some .int) := by
    have hy : (p.bodyScope f).className? (.ident y) = none := by decide +kernel +zetaReduce
    exact .intro _ _ rfl (forall_mem_two.2 ⟨.intro _ _ hy nofun, .intro _ _ rfl nofun⟩)
  have hx (hint : Option ValType) :
      (p.bodyScope m).Throughout (p.bodyScope m).Usable (.ident x) hint := by
    have hvar : (p.bodyScope m).className? (.ident x) = none := by decide +kernel +zetaReduce
    exact .intro _ _ hvar nofun
  have hcall : (p.bodyScope m).Throughout (p.bodyScope m).Usable call (some .int) := by
    have hresult : ((p.bodyScope m).callTyping (.this pos) "f").valType (some .int) ≠ .void := by
      decide +kernel +zetaReduce
    refine .intro _ _ ⟨hresult, .inr (.inl ⟨.object "A", rfl⟩)⟩ fun ⟨e, hint⟩ hp ↦ ?_
    rcases List.mem_pair.1 (Scope.mem_children_of_parts hp) with rfl | rfl
    · exact .intro _ _ rfl nofun
    · exact hx hint
  have hassign : (p.bodyScope m).StmtThroughout (p.bodyScope m).Usable (p.bodyScope m).Allowed
      (.assign x none call pos) := by
    have hlocal : (p.bodyScope m).binding "x" ≠ .cls := by decide +kernel +zetaReduce
    have hstore : (p.bodyScope m).targetTy? x.name false call = some .int := by
      decide +kernel +zetaReduce
    refine .intro _ hlocal ?_ nofun
    have hparts : (p.bodyScope m).stmtParts (.assign x none call pos) = [(call, some .int)] :=
      congrArg (fun ty ↦ [(call, ty)]) hstore
    rw [hparts]
    exact List.forall_mem_singleton.2 hcall
  have hprint : (p.bodyScope m).StmtThroughout (p.bodyScope m).Usable (p.bodyScope m).Allowed
      (.expr print pos) := by
    have hio : ((p.bodyScope m).className? (.ident io)).isSome := by decide +kernel +zetaReduce
    refine .intro _ ?_ (fun ⟨e, hint⟩ hp ↦ ?_) nofun
    · rintro recv method args pos' ⟨⟩
      exact .inl hio
    · rcases List.mem_append.1 hp with hp | hp
      · exact absurd (if_pos hio ▸ hp) List.not_mem_nil
      · obtain rfl := List.mem_singleton.1 (Scope.mem_of_argParts hp)
        exact hx hint
  have hg : p.Generable := by
    refine forall_mem_two.2 ⟨List.forall_mem_singleton.2 ?_, ?_⟩
    · exact .intro _ trivial (List.forall_mem_singleton.2 hsum) nofun
    · have htest : (p.bodyScope m).Throughout (p.bodyScope m).Usable test (some .bool) :=
        .intro _ _ rfl (forall_mem_two.2 ⟨hx _, .intro _ _ rfl nofun⟩)
      refine List.forall_mem_cons.2 ⟨.intro _ trivial nofun nofun, List.forall_mem_cons.2 ⟨?_,
        forall_mem_two.2 ⟨hprint, .intro _ trivial (List.forall_mem_singleton.2 (hx _)) nofun⟩⟩⟩
      exact .intro _ trivial (List.forall_mem_singleton.2 htest)
        (List.forall_mem_singleton.2 hassign)
  exact ⟨h, hg, compiles hn h hg⟩

/-- In `class A extends B` with `void v() { }`, each of the bodies `A a; a = A;`, `A = 1;`, `q.f();`
for an inherited `q`, and `io.println(this.v());` is accepted but has no code. -/
theorem not_compiled_without_values :
    let pos := Position.point 1 1
    let void : TypeExpr := ⟨.void, false, false, pos⟩
    let a : Ident := ⟨"a", pos⟩
    let cls : Ident := ⟨"A", pos⟩
    let method (name : String) (body : List Stmt) : MethodDecl :=
      { isPublic := true, isStatic := false, ret := void, name := ⟨name, pos⟩, params := [], body
        pos }
    let classValue := [.var ⟨⟨.named "A", false, false, pos⟩, a, pos⟩,
      .assign a none (.ident cls) pos]
    let classTarget := [.assign cls none (.int 1 pos) pos]
    let foreignReceiver := [.expr (.call (.ident ⟨"q", pos⟩) ⟨"f", pos⟩ [] pos) pos]
    let noResult := [.expr (.call (.ident ⟨"io", pos⟩) ⟨"println", pos⟩
      [.call (.this pos) ⟨"v", pos⟩ [] pos] pos) pos]
    let program (body : List Stmt) : Program :=
      ⟨[["io"]], ⟨cls, some ⟨"B", pos⟩, [], [method "v" [], method "m" body], pos⟩⟩
    ∀ body ∈ [classValue, classTarget, foreignReceiver, noResult],
      ((program body).cls.methods.map (·.name.name)).Nodup ∧
        (∀ m ∈ (program body).cls.methods, (m.params.map (·.name.name)).Nodup) ∧
        "this" ∉ (program body).symbols.declaredNames ∧
        (program body).check = [] ∧ ¬ ((program body).compile {}).success := by
  decide +kernel +zetaReduce

end Program

end MiniJava

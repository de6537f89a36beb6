import MiniJava.Proofs.Checking.Rules

namespace MiniJava

structure MethodDecl.Shaped (m : MethodDecl) : Prop where
  main : m.name.name = "main" → m.isPublic ∧ m.isStatic ∧ m.ret.ty = .void ∧
    ∃ q, m.params = [q] ∧ q.ty.ty = Ty.arrayOf .string
  ends : m.ret.ty ≠ .void → ∃ value pos, m.body.getLast? = some (.return value pos)

theorem MethodDecl.checkMain_eq_nil_iff {m : MethodDecl} {ret : Ty} :
    m.checkMain ret = [] ↔ m.isPublic ∧ m.isStatic ∧ ret = .void ∧
      ∃ q, m.params = [q] ∧ q.ty.ty = Ty.arrayOf .string := by
  rw [checkMain, List.append_eq_nil_iff, List.append_eq_nil_iff]
  cases m.params with
  | nil => simp
  | cons q rest =>
    cases rest with
    | nil => simp [and_assoc]
    | cons q' rest => simp

theorem Stmt.isReturn_iff {stmt : Stmt} :
    stmt.isReturn ↔ ∃ value pos, stmt = .return value pos := by
  cases stmt with
  | «return» value pos => exact iff_of_true rfl ⟨value, pos, rfl⟩
  | var | block | ifThen | ifElse | «while» | expr | assign => exact iff_of_false nofun nofun

theorem MethodDecl.checkShape_eq_nil_iff {m : MethodDecl} :
    m.checkShape m.ret.ty = [] ↔ m.Shaped := by
  have hlast : m.body.getLast?.any Stmt.isReturn ↔
      ∃ value pos, m.body.getLast? = some (.return value pos) := by
    cases m.body.getLast? with
    | none => simp
    | some stmt => simp [Stmt.isReturn_iff]
  have hmain : (if m.name.name = "main" then m.checkMain m.ret.ty else []) = [] ↔
      (m.name.name = "main" → m.isPublic ∧ m.isStatic ∧ m.ret.ty = .void ∧
        ∃ q, m.params = [q] ∧ q.ty.ty = Ty.arrayOf .string) := by
    rw [← checkMain_eq_nil_iff]
    split <;> simp [*]
  rw [checkShape, List.append_eq_nil_iff, hmain]
  refine (and_congr_right' ?_).trans ⟨fun h ↦ ⟨h.1, h.2⟩, fun h ↦ ⟨h.main, h.ends⟩⟩
  rw [← hlast]
  by_cases hvoid : m.ret.ty = .void
  · simp [hvoid]
  · simp [hvoid]

namespace Program

variable {p : Program}

/-- A program is accepted just if in each method the shape, every statement and every expression at
any depth is as it should be. -/
theorem accepted_iff (hn : (p.cls.methods.map (·.name.name)).Nodup) :
    p.check = [] ↔ ∀ m ∈ p.cls.methods, m.Shaped ∧
      (∀ stmt ∈ m.body, ∀ x, Stmt.Within x stmt → (p.scope m).ProperStmt x) ∧
      ∀ e ∈ Stmt.exprsAll m.body, ∀ x, (p.scope m).Occurs x e → (p.scope m).Proper x := by
  rw [check, List.flatMap_eq_nil_iff]
  refine forall₂_congr fun m hm ↦ ?_
  rw [MethodDecl.check, method?_eq hn hm, List.append_eq_nil_iff]
  refine and_congr MethodDecl.checkShape_eq_nil_iff ?_
  refine (Scope.checkStmts_eq_nil_iff (s := p.scope m) rfl m.body).trans ?_
  simp only [Scope.check_eq_nil_iff_occurs]

/-- `int sum(int... xs) { while (0 < xs.length) xs[0] = this.sum(xs, 1); return xs[0]; }`, where the
call passes an array for a single value, and the same with `this.sum(1, 2)`. -/
theorem accepted_iff_nested :
    let pos := Position.point 1 1
    let int : TypeExpr := ⟨.int, false, false, pos⟩
    let xs : Ident := ⟨"xs", pos⟩
    let sum : Ident := ⟨"sum", pos⟩
    let test := Expr.binary .less (.int 0 pos) (.length (.ident xs) pos) pos
    let result := Expr.index (.ident xs) (.int 0 pos) pos
    let program (args : List Expr) : Program :=
      let store := Stmt.assign xs (some (.int 0 pos)) (.call (.this pos) sum args pos) pos
      let m : MethodDecl :=
        { isPublic := true, isStatic := false, ret := int, name := sum
          params := [⟨⟨.int, false, true, pos⟩, xs, pos⟩]
          body := [.while test store pos, .return (some result) pos], pos }
      ⟨[], ⟨⟨"A", pos⟩, none, [], [m], pos⟩⟩
    let proper (p : Program) : Prop := ∀ m ∈ p.cls.methods, m.Shaped ∧
      (∀ stmt ∈ m.body, ∀ x, Stmt.Within x stmt → (p.scope m).ProperStmt x) ∧
      ∀ e ∈ Stmt.exprsAll m.body, ∀ x, (p.scope m).Occurs x e → (p.scope m).Proper x
    ((program [.int 1 pos, .int 2 pos]).cls.methods.map (·.name.name)).Nodup ∧
      proper (program [.int 1 pos, .int 2 pos]) ∧ ¬ proper (program [.ident xs, .int 1 pos]) := by
  intro pos int xs sum test result program proper
  have hn (args : List Expr) : ((program args).cls.methods.map (·.name.name)).Nodup :=
    List.nodup_singleton _
  have haccepted : (program [.int 1 pos, .int 2 pos]).check = [] := by decide +kernel +zetaReduce
  have hrefused : (program [.ident xs, .int 1 pos]).check ≠ [] := by decide +kernel +zetaReduce
  exact ⟨hn _, (accepted_iff (hn _)).1 haccepted, mt (accepted_iff (hn _)).2 hrefused⟩

end Program

end MiniJava

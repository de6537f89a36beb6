import MiniJava.Proofs.Checking.Usable
import MiniJava.Proofs.Checking.Worth

namespace MiniJava

open Tac Lower

def Tac.Instr.StoresValue : Instr → Prop
  | .assign dest ty r => dest.ty ≠ .void ∧ ty ≠ .void ∧ r.ty ≠ .void
  | .putField _ ty x => ty ≠ .void ∧ x.ty ≠ .void
  | .call _ | .branch .. | .goto _ | .label _ | .return .. | .invalid _ => True

instance (i : Instr) : Decidable i.StoresValue :=
  match i with
  | .assign dest ty r => inferInstanceAs (Decidable (dest.ty ≠ .void ∧ ty ≠ .void ∧ r.ty ≠ .void))
  | .putField _ ty x => inferInstanceAs (Decidable (ty ≠ .void ∧ x.ty ≠ .void))
  | .call _ | .branch .. | .goto _ | .label _ | .return .. | .invalid _ => isTrue trivial

namespace Scope

variable {s : Scope} {m : Signature} {i : Instr} (hd : s.symbols.DeclaresValues) (hs : s.Own)

include hd hs

theorem ReadTy.ne_void {name : String} {ty : ValType}
    (h : s.ReadTy s.Worth s.WorthStmt name ty) : ty ≠ .void := by
  cases h with
  | @declared name f hb =>
    exact ValType.ofTy_ne_void (ne_void_of_declaredTy hd hs (by rw [declaredTy?, hb]))
  | inherited he =>
    rcases he with he | rfl
    · exact he.hint
    · simp
  | stored hstmt hty => exact (hstmt.store hd hs (targetTy_of_field hty)).2.1

omit hs in
theorem BuiltTy.ne_void {ty : ValType} (h : s.BuiltTy s.Worth ty) : ty ≠ .void := by
  cases h with
  | literal _ => exact nofun
  | gathered hp => exact (gathered_of_packing hd hp).ne_void

variable (hw : ∀ name m, s.symbols.method? name = some m → m.WellFormed)

include hw

/-- Where expressions have the values that are wanted of them, all that is stored is a value. -/
theorem Issued.storesValue (hm : s.method = some m) (h : s.Issued s.Worth s.WorthStmt i) :
    i.StoresValue := by
  have hpart {e' e : Expr} {hint' hint : Option ValType} {v : Operand} (he : s.Worth e' hint')
      (hmem : (e, hint) ∈ s.parts e' hint') (hv : s.Gives e hint v) : v.ty ≠ .void :=
    hv.ne_void hd hs hw (he.part hd hw _ hmem)
  have hused {stmt : Stmt} {e : Expr} {hint : Option ValType} {v : Operand}
      (hst : s.WorthStmt stmt) (hmem : (e, hint) ∈ s.stmtParts stmt) (hv : s.Gives e hint v) :
      v.ty ≠ .void := hv.ne_void hd hs hw (hst.part hd hs hw hm _ hmem)
  have hsecond {a b : Expr × Option ValType} : b ∈ [a, b] :=
    List.mem_cons_of_mem a (List.mem_singleton_self b)
  cases h with
  | read x hread =>
    have hne := hread.ne_void hd hs
    exact ⟨hne, hne, hne⟩
  | allocate x ty len hbuilt | packed x y ty hbuilt =>
    have hne := hbuilt.ne_void hd
    exact ⟨hne, hne, hne⟩
  | arith | less | skip | not | length | object | newArray => exact ⟨nofun, nofun, nofun⟩
  | last x he hb => exact ⟨nofun, nofun, hpart he hsecond hb⟩
  | @index base idx pos hint a i ty x he ha hi hty =>
    have hbase := ha.valueTy hd hs hw (he.part hd hw _ List.mem_cons_self)
    have helement : s.ValueTy (.index base idx pos) hint ty :=
      hty ▸ hbase.of_element he.checked.everywhere.here
    have hne := helement.ne_void he.hint
    exact ⟨hne, hne, hne⟩
  | element x k he hmem hty hv =>
    subst hty
    have hne := (valued_literalElement he.checked.everywhere).ne_void
    exact ⟨hne, hne, hpart he (List.mem_map_of_mem hmem) hv⟩
  | call x he hk =>
    have hne := he.result_ne_void
    rw [← hk.cases.1] at hne
    exact ⟨hne, hne, hne⟩
  | @argument recv method args pos p e v x k he hp hmem hv =>
    have hne := (gathered_of_packing hd hp).element_ne_void
    have hmem' : (e, some p.element) ∈ s.argParts (s.target? recv method.name) args := by
      simp only [argParts, hp]
      exact List.mem_append_right _ (List.mem_map_of_mem hmem)
    refine ⟨hne, hne, ?_⟩
    rcases part_of_evaluates he hmem' with ⟨e', hint', he', hpart'⟩ | ⟨stmt, hst, hpart'⟩
    · exact hpart he' hpart' hv
    · exact hused hst hpart' hv
  | store hst hdest hv =>
    have hne := (hst.store hd hs (targetTy_of_storage hdest)).2.1
    refine ⟨hne, hne, hused hst ?_ hv⟩
    simp [stmtParts, targetTy_of_storage hdest]
  | put hst hty hv =>
    refine ⟨(hst.store hd hs (targetTy_of_field hty)).2.1, hused hst ?_ hv⟩
    simp [stmtParts, targetTy_of_field hty]
  | storeAt hst ha hty hi hv =>
    subst hty
    have hne := (hst.store hd hs ha.targetTy).2.2 rfl
    refine ⟨hne, hne, hused hst ?_ hv⟩
    simp [stmtParts, ha.targetTy]
  | construct | and | undeclared | unknownClass | unassignable | goto | label | test | compare
  | effect | returnNone | returnSome => trivial

omit hd hs hw in
theorem Issued.fed_of_worth (hm : s.method = some m) (h : s.Issued s.Worth s.WorthStmt i) :
    i.Fed :=
  h.fed_of (fun _ _ _ _ _ he ↦ he.result_ne_void)
    fun _ hstmt ↦ returnTy_of_check hm hstmt.checked.check

end Scope

namespace Program

variable {p : Program}

structure Filled (p : Program) : Prop where
  exprs : ∀ m ∈ p.cls.methods, ∀ e ∈ Stmt.exprsAll m.body, e.Everywhere (p.bodyScope m).Filled
  stmts : ∀ m ∈ p.cls.methods, ∀ stmt ∈ m.body, ∀ x, Stmt.Within x stmt →
    (p.bodyScope m).FilledStmt x

theorem own_bodyScope (p : Program) (m : MethodDecl) : (p.bodyScope m).Own :=
  fun _ ↦ Symbols.mem_of_method?

theorem issued_worth (h : p.check = []) (hd : p.symbols.DeclaresValues) (hf : p.Filled)
    {m : MethodDecl} (hm : m ∈ p.cls.methods) (n : Numbering) :
    ∀ i ∈ (m.lower p.symbols n).code,
      (p.bodyScope m).Issued (p.bodyScope m).Worth (p.bodyScope m).WorthStmt i := by
  obtain ⟨sig, hsig⟩ := method_bodyScope hm
  have hchecked := Scope.checkedStmts_throughout hsig m.body (checkStmts_bodyScope h hm)
    (hf.exprs m hm)
  exact Scope.issues_lowerStmts (fun stmt hstmt ↦ (hchecked stmt hstmt).worth hd (p.own_bodyScope m)
    (fun _ _ ↦ wellFormed) hsig (hf.stmts m hm stmt hstmt)) n

/-- An accepted program that has values wherever they are wanted stores nothing else, and each of
its instructions puts on the stack what it takes from there. -/
theorem stores_values (h : p.check = []) (hd : p.symbols.DeclaresValues) (hf : p.Filled) :
    ∀ tm ∈ p.lower.1.methods, ∀ i ∈ tm.code, i.StoresValue ∧
      ∀ k part, (Jasmin.instr p.lower.1 tm k i).1 = .ok part → Jasmin.Covers 0 part 0 := by
  have hboth : ∀ tm ∈ p.lower.1.methods, ∀ i ∈ tm.code, i.StoresValue ∧ i.Fed := by
    intro tm htm
    rcases List.mem_cons.1 htm with rfl | htm
    -- The constructor runs that of the superclass and stores nothing.
    · exact List.forall_mem_singleton.2 ⟨trivial, rfl⟩
    · obtain ⟨m, hm, n, rfl⟩ := mem_lowerMethods htm
      obtain ⟨sig, hsig⟩ := method_bodyScope hm
      refine forall_closeBody (fun _ ↦ ⟨trivial, rfl⟩) fun i hi ↦ ?_
      have hissued := issued_worth h hd hf hm n i hi
      exact ⟨hissued.storesValue hd (p.own_bodyScope m) (fun _ _ ↦ wellFormed) hsig,
        hissued.fed_of_worth hsig⟩
  intro tm htm i hi
  obtain ⟨hstores, hfed⟩ := hboth tm htm i hi
  exact ⟨hstores, fun k part hpart ↦ Jasmin.covers_instr hpart hfed⟩

/-- In `class A extends B`, `void v() { }`, `void[] w() { return this.w(); }` and
`void m() { int x; void[] a; x = this.f(); a = this.w(); this.v(); q = [x][0]; io.println(x); }` for
an inherited `q`. -/
theorem stores_values_inherited :
    let pos := Position.point 1 1
    let void : TypeExpr := ⟨.void, false, false, pos⟩
    let voids : TypeExpr := ⟨.void, true, false, pos⟩
    let int : TypeExpr := ⟨.int, false, false, pos⟩
    let x : Ident := ⟨"x", pos⟩
    let a : Ident := ⟨"a", pos⟩
    let own (name : String) := Expr.call (.this pos) ⟨name, pos⟩ [] pos
    let element := Expr.index (.array [.ident x] pos) (.int 0 pos) pos
    let print := Expr.call (.ident ⟨"io", pos⟩) ⟨"println", pos⟩ [.ident x] pos
    let method (name : String) (ret : TypeExpr) (body : List Stmt) : MethodDecl :=
      { isPublic := true, isStatic := false, ret, name := ⟨name, pos⟩, params := [], body, pos }
    let v := method "v" void []
    let w := method "w" voids [.return (some (own "w")) pos]
    let f := method "f" int [.return (some (.int 1 pos)) pos]
    let m := method "m" void [.var ⟨int, x, pos⟩, .var ⟨voids, a, pos⟩,
      .assign x none (own "f") pos, .assign a none (own "w") pos, .expr (own "v") pos,
      .assign ⟨"q", pos⟩ none element pos, .expr print pos]
    let p : Program := ⟨[["io"]], ⟨⟨"A", pos⟩, some ⟨"B", pos⟩, [], [v, w, f, m], pos⟩⟩
    p.check = [] ∧ p.symbols.DeclaresValues ∧ p.Filled ∧
      ∀ tm ∈ p.lower.1.methods, ∀ i ∈ tm.code, i.StoresValue ∧
        ∀ k part, (Jasmin.instr p.lower.1 tm k i).1 = .ok part → Jasmin.Covers 0 part 0 := by
  intro pos void voids int x a own element print method v w f m p
  have h : p.check = [] := by decide +kernel +zetaReduce
  have hd : p.symbols.DeclaresValues := ⟨nofun, by decide +kernel +zetaReduce,
    by decide +kernel +zetaReduce, by decide +kernel +zetaReduce⟩
  have hx : (p.bodyScope m).typing (.ident x) = .known .int := by decide +kernel +zetaReduce
  have hvalued : (p.bodyScope m).Meets Ty.Valued (.ident x) := by
    intro ty hty
    obtain rfl := Typing.known.inj (hx.symm.trans hty)
    decide
  have hown (s : Scope) (name : String) : (own name).Everywhere s.Filled :=
    .one (fun _ ↦ nofun) rfl (.leaf trivial rfl)
  have hbase : (p.bodyScope m).Filled element := by
    have hints : (p.bodyScope m).typing (.array [.ident x] pos) = .known (.arrayOf .int) := by
      decide +kernel +zetaReduce
    intro hvoids
    exact absurd (hints.symm.trans hvoids) (by decide)
  have helement : element.Everywhere (p.bodyScope m).Filled :=
    .two hbase rfl (.one (List.forall_mem_singleton.2 hvalued) rfl (.leaf trivial rfl))
      (.leaf trivial rfl)
  have hargs : (p.bodyScope m).Filled print :=
    fun _ ↦ List.forall_mem_singleton.2 (hx ▸ by decide)
  have hprint : print.Everywhere (p.bodyScope m).Filled :=
    .two hargs rfl (.leaf trivial rfl) (.leaf trivial rfl)
  have hassign (target : Ident) (value : Expr)
      (hvalue : (p.bodyScope m).typing value ≠ .known .void) :
      (p.bodyScope m).FilledStmt (.assign target none value pos) := ⟨fun _ ↦ hvalue, by simp⟩
  have hbody : ∀ stmt ∈ m.body, stmt.inner = [] ∧ (p.bodyScope m).FilledStmt stmt := by
    refine List.forall_mem_cons.2 ⟨⟨rfl, trivial⟩, List.forall_mem_cons.2 ⟨⟨rfl, trivial⟩, ?_⟩⟩
    refine List.forall_mem_cons.2 ⟨⟨rfl, hassign _ _ ?_⟩, List.forall_mem_cons.2
      ⟨⟨rfl, hassign _ _ ?_⟩, List.forall_mem_cons.2 ⟨⟨rfl, trivial⟩, forall_mem_two.2
        ⟨⟨rfl, hassign _ _ ?_⟩, rfl, trivial⟩⟩⟩⟩
    · decide +kernel +zetaReduce
    · decide +kernel +zetaReduce
    · decide +kernel +zetaReduce
  have hplain {s : Scope} {stmt : Stmt} (hstmt : stmt.inner = [] ∧ s.FilledStmt stmt) :
      ∀ y, Stmt.Within y stmt → s.FilledStmt y :=
    Scope.forall_within_iff.2 ⟨hstmt.2, fun y hy ↦ absurd (hstmt.1 ▸ hy) List.not_mem_nil⟩
  have hf : p.Filled := by
    constructor
    · refine List.forall_mem_cons.2 ⟨fun _ hv ↦ absurd hv List.not_mem_nil,
        List.forall_mem_cons.2 ⟨?_, forall_mem_two.2 ⟨?_, ?_⟩⟩⟩
      · exact List.forall_mem_singleton.2 (hown _ "w")
      · exact List.forall_mem_singleton.2 (.leaf trivial rfl)
      · exact List.forall_mem_cons.2 ⟨hown _ "f", List.forall_mem_cons.2 ⟨hown _ "w",
          List.forall_mem_cons.2 ⟨hown _ "v", forall_mem_two.2 ⟨helement, hprint⟩⟩⟩⟩
    · refine List.forall_mem_cons.2 ⟨fun _ hv ↦ absurd hv List.not_mem_nil,
        List.forall_mem_cons.2 ⟨?_, forall_mem_two.2 ⟨?_, ?_⟩⟩⟩
      · exact List.forall_mem_singleton.2 (hplain ⟨rfl, trivial⟩)
      · exact List.forall_mem_singleton.2 (hplain ⟨rfl, trivial⟩)
      · exact fun stmt hstmt ↦ hplain (hbody stmt hstmt)
  exact ⟨h, hd, hf, stores_values h hd hf⟩

/-- In `class A extends B` with `void v() { }` and `void[] w() { return this.w(); }`, the result of
`v` is an argument of `io.println`, an element of an array, or what the inherited `q` is assigned,
and `this.w()[0]` is an element without a value. -/
theorem stores_no_value :
    let pos := Position.point 1 1
    let void : TypeExpr := ⟨.void, false, false, pos⟩
    let own (name : String) := Expr.call (.this pos) ⟨name, pos⟩ [] pos
    let method (name : String) (ret : TypeExpr) (body : List Stmt) : MethodDecl :=
      { isPublic := true, isStatic := false, ret, name := ⟨name, pos⟩, params := [], body, pos }
    let argument := Stmt.expr (.call (.ident ⟨"io", pos⟩) ⟨"println", pos⟩ [own "v"] pos) pos
    let literal := Stmt.expr (.array [own "v"] pos) pos
    let inherited := Stmt.assign ⟨"q", pos⟩ none (own "v") pos
    let element := Stmt.expr (.index (own "w") (.int 0 pos) pos) pos
    let program (stmt : Stmt) : Program :=
      ⟨[["io"]], ⟨⟨"A", pos⟩, some ⟨"B", pos⟩, [], [method "v" void [],
        method "w" ⟨.void, true, false, pos⟩ [.return (some (own "w")) pos],
        method "m" void [stmt]], pos⟩⟩
    ∀ stmt ∈ [argument, literal, inherited, element],
      (program stmt).check = [] ∧ (program stmt).symbols.fields = [] ∧
        (∀ m ∈ (program stmt).symbols.methods, m.params = [] ∧ m.locals = []) ∧
        ∃ tm ∈ (program stmt).lower.1.methods, ∃ i ∈ tm.code, ¬ i.StoresValue := by
  decide +kernel +zetaReduce

end Program

end MiniJava

import MiniJava.Lower.Program
import MiniJava.Proofs.Lowering.Knowing
import MiniJava.Proofs.Lowering.Writes

namespace MiniJava

open Tac Lower

namespace Lower

structure Generated where
  stem : String
  number : Nat
  plain : Plain stem

def Generated.name (g : Generated) : String := numbered g.stem g.number

theorem Generated.name_inj {g g' : Generated} :
    g.name = g'.name ↔ g.stem = g'.stem ∧ g.number = g'.number := numbered_inj g.plain g'.plain

/-- Searches one after another, each of which starts behind the number where the last one ended. -/
inductive FindsAll (taken : List String) : Nat → List Generated → Nat → Prop
  | nil (n : Nat) : FindsAll taken n [] n
  | cons {n m : Nat} {g : Generated} {rest : List Generated} : Finds taken g.stem n g.number →
      FindsAll taken (g.number + 1) rest m → FindsAll taken n (g :: rest) m

structure Fresh (taken : List String) (made : List Generated) : Prop where
  increasing : made.Pairwise fun g g' ↦ g.number < g'.number
  nodup : (made.map Generated.name).Nodup
  free : ∀ g ∈ made, g.name ∉ taken

/-- The names that a step of code generation makes, in order, when it starts with a numbering. -/
inductive Makes (taken : List String) :
    {α : Type} → Lower α → Numbering → List Generated → Prop
  | pure {α : Type} (a : α) (n : Numbering) : Makes taken (Pure.pure a) n []
  | emit (i : Instr) (n : Numbering) : Makes taken (Lower.emit i) n []
  | unsupported (what : String) (pos : Position) (n : Numbering) :
      Makes taken (Lower.unsupported what pos) n []
  | freshLabel (n : Numbering) : Makes taken Lower.freshLabel n []
  | freshName {stem : String} (h : Plain stem) (n : Numbering) :
      Makes taken (Lower.freshName taken stem) n [⟨stem, freshNumber taken stem n.temp, h⟩]
  | bind {α β : Type} {x : Lower α} {f : α → Lower β} {n : Numbering}
      {made made' : List Generated} : Makes taken x n made →
      Makes taken (f (x n).value) (x n).next made' → Makes taken (x >>= f) n (made ++ made')

variable {taken : List String} {stem : String} {n m k : Nat} {made made' : List Generated}

namespace FindsAll

theorem append (h : FindsAll taken n made m) (h' : FindsAll taken m made' k) :
    FindsAll taken n (made ++ made') k := by
  induction h with
  | nil => exact h'
  | cons hg _ ih => exact .cons hg (ih h')

theorem le_number (h : FindsAll taken n made m) : ∀ g ∈ made, n ≤ g.number := by
  induction h with
  | nil => nofun
  | cons hg _ ih =>
    refine List.forall_mem_cons.2 ⟨hg.le, fun g hmem ↦ ?_⟩
    exact Nat.le_trans hg.le (Nat.le_of_succ_le (ih g hmem))

theorem increasing (h : FindsAll taken n made m) :
    made.Pairwise fun g g' ↦ g.number < g'.number := by
  induction h with
  | nil => exact .nil
  | cons _ hrest ih => exact .cons (fun g hg ↦ hrest.le_number g hg) ih

theorem free (h : FindsAll taken n made m) : ∀ g ∈ made, g.name ∉ taken := by
  induction h with
  | nil => nofun
  | cons hg _ ih => exact List.forall_mem_cons.2 ⟨hg.not_mem, ih⟩

theorem fresh (h : FindsAll taken n made m) : Fresh taken made where
  increasing := h.increasing
  nodup := by
    rw [List.nodup_iff_pairwise_ne, List.pairwise_map]
    exact h.increasing.imp fun hlt he ↦ Nat.ne_of_lt hlt (Generated.name_inj.1 he).2
  free := h.free

end FindsAll

/-- Whatever a step is composed of, its names are searched for one after another. -/
theorem Makes.findsAll {α : Type} {x : Lower α} {n : Numbering} (h : Makes taken x n made) :
    FindsAll taken n.temp made (x n).next.temp := by
  induction h with
  | pure | emit | unsupported | freshLabel => exact .nil _
  | freshName h n => exact .cons (finds_freshNumber h taken n.temp) (.nil _)
  | bind _ _ ih ih' => exact ih.append ih'

theorem exists_makes_mapM (taken : List String) {stems : List String}
    (h : ∀ stem ∈ stems, Plain stem) (n : Numbering) :
    ∃ made, Makes taken (stems.mapM (freshName taken)) n made ∧
      made.map Generated.stem = stems ∧
      (stems.mapM (freshName taken) n).value = made.map Generated.name := by
  induction stems generalizing n with
  | nil => exact ⟨[], .pure [] n, rfl, rfl⟩
  | cons stem stems ih =>
    obtain ⟨hstem, hstems⟩ := List.forall_mem_cons.1 h
    obtain ⟨made, hmade, hmap, hvalue⟩ := ih hstems (freshName taken stem n).next
    let g : Generated := ⟨stem, freshNumber taken stem n.temp, hstem⟩
    refine ⟨[g] ++ (made ++ []), ?_, ?_, ?_⟩
    · rw [List.mapM_cons]
      exact (Makes.freshName hstem n).bind (hmade.bind (.pure _ _))
    · simp [g, hmap]
    · rw [List.mapM_cons, value_bind, value_bind, hvalue, List.append_nil]
      rfl

def Generates (taken : List String) {α : Type} (x : Lower α) : Prop :=
  ∀ n, ∃ made, Makes taken x n made

namespace Generates

variable {α β : Type}

theorem pure (a : α) : Generates taken (Pure.pure a) := fun n ↦ ⟨_, .pure a n⟩

theorem emit (i : Instr) : Generates taken (Lower.emit i) := fun n ↦ ⟨_, .emit i n⟩

theorem freshLabel : Generates taken Lower.freshLabel := fun n ↦ ⟨_, .freshLabel n⟩

theorem freshName (h : Plain stem) : Generates taken (Lower.freshName taken stem) :=
  fun n ↦ ⟨_, .freshName h n⟩

theorem bind {x : Lower α} {f : α → Lower β} (hx : Generates taken x)
    (hf : ∀ a, Generates taken (f a)) : Generates taken (x >>= f) := by
  intro n
  obtain ⟨made, h⟩ := hx n
  obtain ⟨made', h'⟩ := hf (x n).value (x n).next
  exact ⟨made ++ made', h.bind h'⟩

end Generates

/-- Code generation makes its names by searching for ones that are not declared. -/
theorem knowing_generates (s : Scope) :
    Knowing s (fun _ ↦ True) fun _ x _ ↦ Generates s.symbols.declaredNames x where
  pure _ := .pure _
  bind := .bind
  emit _ _ _ := .emit _
  assign hs _ := (Generates.freshName (plain_of_mem_tempStems hs)).bind fun _ ↦
    (Generates.emit _).bind fun _ ↦ .pure _
  unsupported what pos n := ⟨_, .unsupported what pos n⟩
  and hl hr := by
    have htemp : Generates s.symbols.declaredNames (s.freshTemp .bool) :=
      (Generates.freshName (by decide)).bind fun _ ↦ .pure _
    refine (hl []).bind fun l ↦ Generates.freshLabel.bind fun id ↦ htemp.bind fun result ↦ ?_
    refine (Generates.emit _).bind fun _ ↦ (Generates.emit _).bind fun _ ↦ ?_
    refine (Generates.emit _).bind fun _ ↦ (Generates.emit _).bind fun _ ↦ (hr []).bind fun r ↦ ?_
    exact (Generates.emit _).bind fun _ ↦ (Generates.emit _).bind fun _ ↦ .pure _
  ite hc hb ho := by
    refine Generates.freshLabel.bind fun id ↦ (hc []).bind fun c ↦ ?_
    refine (Generates.emit _).bind fun _ ↦ (Generates.emit _).bind fun _ ↦ ?_
    refine (Generates.emit _).bind fun _ ↦ (hb []).bind fun _ ↦ (Generates.emit _).bind fun _ ↦ ?_
    exact (Generates.emit _).bind fun _ ↦ (ho []).bind fun _ ↦ .emit _
  loop hc hb := by
    refine Generates.freshLabel.bind fun id ↦ (hc []).bind fun c ↦ ?_
    refine (Generates.emit _).bind fun _ ↦ (Generates.emit _).bind fun _ ↦ ?_
    refine (Generates.emit _).bind fun _ ↦ (hb []).bind fun _ ↦ (hc []).bind fun again ↦ ?_
    exact (Generates.emit _).bind fun _ ↦ .emit _

end Lower

inductive Symbols.MakesAll (t : Symbols) : Numbering → List MethodDecl → List Generated → Prop
  | nil (n : Numbering) : MakesAll t n [] []
  | cons {n : Numbering} {m : MethodDecl} {ms : List MethodDecl} {made rest : List Generated} :
      Makes t.declaredNames (m.lower t) n made → MakesAll t (m.lower t n).next ms rest →
      MakesAll t n (m :: ms) (made ++ rest)

theorem Symbols.MakesAll.findsAll {t : Symbols} {n : Numbering} {ms : List MethodDecl}
    {made : List Generated} (h : t.MakesAll n ms made) :
    ∃ m, FindsAll t.declaredNames n.temp made m := by
  induction h with
  | nil n => exact ⟨n.temp, .nil _⟩
  | cons h _ ih =>
    obtain ⟨m, hrest⟩ := ih
    exact ⟨m, h.findsAll.append hrest⟩

theorem Symbols.exists_makesAll (t : Symbols) (n : Numbering) (ms : List MethodDecl) :
    ∃ made, t.MakesAll n ms made := by
  induction ms generalizing n with
  | nil => exact ⟨[], .nil n⟩
  | cons m ms ih =>
    have hbody : Generates t.declaredNames (m.lower t) :=
      (knowing_generates ⟨t, t.method? m.name.name⟩).lowerStmts
        (fun e _ ↦ Scope.everywhere_resolves_loose e) []
    obtain ⟨made, hmade⟩ := hbody n
    obtain ⟨rest, hrest⟩ := ih (m.lower t n).next
    exact ⟨made ++ rest, .cons hmade hrest⟩

/-- Each search for a name ends. However they follow on one another, and so in all methods of a
program, the names that are found are distinct and none is declared. -/
theorem generated_fresh :
    (∀ (t : Symbols) (stems : List String) (n : Numbering), (∀ stem ∈ stems, Plain stem) →
      ∃ made, made.map Generated.stem = stems ∧
        (stems.mapM (freshName t.declaredNames) n).value = made.map Generated.name ∧
        FindsAll t.declaredNames n.temp made
          (stems.mapM (freshName t.declaredNames) n).next.temp ∧
        Fresh t.declaredNames made) ∧
    ∀ p : Program, (∃ made, p.symbols.MakesAll {} p.cls.methods made) ∧
      ∀ made, p.symbols.MakesAll {} p.cls.methods made → Fresh p.symbols.declaredNames made := by
  refine ⟨fun t stems n hs ↦ ?_, fun p ↦ ⟨p.symbols.exists_makesAll {} p.cls.methods, ?_⟩⟩
  · obtain ⟨made, hmade, hstems, hvalue⟩ := exists_makes_mapM t.declaredNames hs n
    exact ⟨made, hstems, hvalue, hmade.findsAll, hmade.findsAll.fresh⟩
  · intro made h
    obtain ⟨m, hm⟩ := h.findsAll
    exact hm.fresh

/-- In a class with a field `tmp1`, with `int f(int... xs) { return xs.length; }` and
`int m(boolean __varargs_array_5) { int tmp0; tmp0 = 1 + 2; return this.f(tmp0); }`. -/
theorem generated_fresh_skip :
    let pos := Position.point 1 1
    let int : TypeExpr := ⟨.int, false, false, pos⟩
    let x : Ident := ⟨"tmp0", pos⟩
    let xs : Ident := ⟨"xs", pos⟩
    let gathered : ParamDecl := ⟨{ int with isVarargs := true }, xs, pos⟩
    let flag : ParamDecl := ⟨⟨.boolean, false, false, pos⟩, ⟨"__varargs_array_5", pos⟩, pos⟩
    let sum := Expr.binary (.arith .add) (.int 1 pos) (.int 2 pos) pos
    let call := Expr.call (.this pos) ⟨"f", pos⟩ [.ident x] pos
    let f : MethodDecl :=
      { isPublic := true, isStatic := false, ret := int, name := ⟨"f", pos⟩, params := [gathered]
        body := [.return (some (.length (.ident xs) pos)) pos], pos }
    let m : MethodDecl :=
      { isPublic := true, isStatic := false, ret := int, name := ⟨"m", pos⟩, params := [flag], pos
        body := [.var ⟨int, x, pos⟩, .assign x none sum pos, .return (some call) pos] }
    let p : Program := ⟨[], ⟨⟨"A", pos⟩, none, [⟨int, ⟨"tmp1", pos⟩, pos⟩], [f, m], pos⟩⟩
    let stems := ["tmp", "__varargs_array_", "tmp", "__varargs_array_"]
    let names := (stems.mapM (freshName p.symbols.declaredNames) {}).value
    (∀ stem ∈ stems, Plain stem) ∧
      names = ["tmp2", "__varargs_array_3", "tmp4", "__varargs_array_6"] ∧
      (p.lower.1.methods.flatMap (·.code)).filterMap Instr.written? =
        ["tmp2", "tmp3", "tmp0", "tmp4", "__varargs_array_6", "__varargs_array_6", "tmp7"] ∧
      (∃ made, made.map Generated.name = names ∧ Fresh p.symbols.declaredNames made) ∧
      ∃ made, p.symbols.MakesAll {} p.cls.methods made ∧ Fresh p.symbols.declaredNames made := by
  intro pos int x xs gathered flag sum call f m p stems names
  have hs : ∀ stem ∈ stems, Plain stem := by decide +kernel +zetaReduce
  refine ⟨hs, by decide +kernel +zetaReduce, by decide +kernel +zetaReduce, ?_, ?_⟩
  · obtain ⟨made, -, hnames, -, hfresh⟩ := generated_fresh.1 p.symbols stems {} hs
    exact ⟨made, hnames.symm, hfresh⟩
  · obtain ⟨⟨made, hmade⟩, hfresh⟩ := generated_fresh.2 p
    exact ⟨made, hmade, hfresh made hmade⟩

end MiniJava

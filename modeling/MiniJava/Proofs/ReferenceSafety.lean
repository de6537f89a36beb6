import MiniJava.Proofs.Assembly.BodyLabels
import MiniJava.Proofs.TypeSafety

namespace MiniJava

open Tac Lower

namespace Jasmin

variable {c : Tac.Class} {m : Tac.Method} {n : Nat} {code : List Instr}

theorem mem_bodies_of_mem {ms : List Tac.Method} (h : m ∈ ms) :
    ∃ k, body c k m ∈ bodies c n ms := by
  induction ms generalizing n with
  | nil => exact absurd h List.not_mem_nil
  | cons m' ms ih =>
    rcases List.mem_cons.1 h with rfl | h
    · exact ⟨n, List.mem_cons_self⟩
    · obtain ⟨k, hk⟩ := ih h
      exact ⟨k, List.mem_cons_of_mem _ hk⟩

theorem ok_of_outcomes (h : ∀ o ∈ (outcomes c m n code).1, ∃ part, o = .ok part) :
    ∀ i ∈ code, ∃ k part, (instr c m k i).1 = .ok part := by
  induction code generalizing n with
  | nil => nofun
  | cons i is ih =>
    rw [outcomes_cons] at h
    obtain ⟨⟨part, hpart⟩, hrest⟩ := List.forall_mem_cons.1 h
    exact List.forall_mem_cons.2 ⟨⟨n, part, hpart⟩, ih hrest⟩

theorem call_of_instr {i : Instr} {part : List (Line Opcode)} (h : (instr c m n i).1 = .ok part)
    {k : Call} (hk : i.call? = some k) : ∃ lines, call c m k = .ok lines := by
  cases i with
  | assign dest t r =>
    cases r with
    | call k' =>
      obtain rfl := Option.some.inj hk
      cases dest with
      | elem array index ty =>
        obtain ⟨place, -, heq⟩ := instr_elem h
        rw [heq] at h
        obtain ⟨lines, hlines, -⟩ := bind_eq_ok.1 h
        exact ⟨lines, hlines⟩
      | lit | var | param | this | cls =>
        obtain ⟨lines, hlines, -⟩ := bind_eq_ok.1 h
        exact ⟨lines, hlines⟩
    | value | arith | less | not | field => exact absurd hk nofun
  | call k' =>
    obtain rfl := Option.some.inj hk
    obtain ⟨lines, hlines, -⟩ := bind_eq_ok.1 h
    exact ⟨lines, hlines⟩
  | putField | branch | goto | label | «return» | invalid => exact absurd hk nofun

theorem isObject_of_owner {t : ValType} {cls : String} (h : owner m t = .ok cls) : t.IsObject := by
  cases t with
  | cls | string => trivial
  | int | bool | void | array => exact absurd h nofun

theorem isObject_of_constructorOwner {x : Operand} {path : String}
    (h : constructorOwner c m x = .ok path) (hx : ∀ cls, x ≠ .this cls) : x.ty.IsObject := by
  have howner : ∃ cls, owner m x.ty = .ok cls := by
    cases ho : owner m x.ty with
    | ok cls => exact ⟨cls, rfl⟩
    | error f =>
      cases x with
      | this cls => exact absurd rfl (hx cls)
      | lit | var | param | elem | cls => simp [constructorOwner, ho] at h
  obtain ⟨cls, hcls⟩ := howner
  exact isObject_of_owner hcls

end Jasmin

structure Tac.Instr.CallsObjects (i : Instr) : Prop where
  virtual : ∀ k recv method args, i.call? = some k → k.kind = .virtual recv method args →
    recv.ty.IsObject
  special : ∀ k recv, i.call? = some k → k.kind = .special recv → (∀ cls, recv ≠ .this cls) →
    recv.ty.IsObject

structure Tac.Instr.UsesArrays (i : Instr) : Prop where
  element : ∀ a idx ty, .elem a idx ty ∈ i.mentions → ∃ t, a.ty = .array t
  length : ∀ k a, i.call? = some k → k.kind = .length a → ∃ t, a.ty = .array t

theorem Jasmin.callsObjects_of_instr {c : Tac.Class} {m : Tac.Method} {n : Nat} {i : Instr}
    {part : List (Line Opcode)} (h : (instr c m n i).1 = .ok part) : i.CallsObjects where
  virtual k recv method args hk hkind := by
    obtain ⟨lines, hlines⟩ := call_of_instr h hk
    obtain ⟨kind, ret⟩ := k
    obtain rfl : kind = .virtual recv method args := hkind
    obtain ⟨cls, hcls, -⟩ := bind_eq_ok.1 hlines
    exact isObject_of_owner hcls
  special k recv hk hkind hne := by
    obtain ⟨lines, hlines⟩ := call_of_instr h hk
    obtain ⟨kind, ret⟩ := k
    obtain rfl : kind = .special recv := hkind
    obtain ⟨path, hpath, -⟩ := bind_eq_ok.1 hlines
    exact isObject_of_constructorOwner hpath hne

theorem Tac.Instr.UsesArrays.of_return : (Instr.return .void none).UsesArrays where
  element _ _ _ hx := absurd hx List.not_mem_nil
  length _ _ hk := absurd hk nofun

theorem Tac.Instr.UsesArrays.of_super (cls : String) :
    (Instr.call ⟨.special (.this cls), .void⟩).UsesArrays where
  element _ _ _ hx := absurd (List.mem_singleton.1 hx) nofun
  length k a hk hkind := by
    obtain rfl := Option.some.inj hk
    exact absurd hkind nofun

namespace Scope

variable {s : Scope}

/-- An array whose type is known or that is written out. -/
def Definite (s : Scope) (e : Expr) : Prop := s.Known e ∨ ∃ elems pos, e.unparen = .array elems pos

def Based (s : Scope) : Expr → Prop
  | .index base _ _ | .length base _ => s.Definite base
  | _ => True

theorem lower_unparen (e : Expr) (hint : Option ValType) :
    s.lower e.unparen hint = s.lower e hint := by
  induction e using Expr.children_induction with
  | step e ih =>
    cases e with
    | paren e pos => exact ih e (List.mem_singleton_self e)
    | int | bool | ident | this | binary | not | index | length | call | newObject | newArray
    | array => rfl

theorem Definite.ty_array {e : Expr} (h : s.Definite e) (hc : s.check e = [])
    (hb : s.checkBase e = []) {v : Operand} (hv : s.Gives e none v) : ∃ ty, v.ty = .array ty := by
  rcases h with ⟨ty, hty⟩ | ⟨elems, pos, harray⟩
  · exact ⟨_, hv.array_of_known hc hty (accepts_of_refuse hb hty)⟩
  · obtain ⟨n, rfl⟩ := hv
    rw [← lower_unparen, harray]
    exact ⟨s.literalElement elems, rfl⟩

theorem Issued.usesArrays (hw : ∀ name m, s.symbols.method? name = some m → m.WellFormed)
    {i : Instr} (h : s.Issued (fun e _ ↦ s.Checked s.Based e) (s.CheckedStmt s.Based) i) :
    i.UsesArrays where
  element a idx ty hx := by
    refine ⟨ty, (h.indexed hx).ty_eq hw (fun base idx pos hint a he ha ↦ ?_) fun _ hs ↦ hs.check⟩
    have hcheck := he.check
    simp only [check, List.append_eq_nil_iff] at hcheck
    exact he.everywhere.here.ty_array hcheck.1.1.1 hcheck.1.2 ha
  length k a hk hkind := by
    cases h.makes hk with
    | @length base pos hint a' he ha =>
      obtain rfl := CallKind.length.inj hkind
      have hcheck : s.check base = [] ∧ s.checkBase base = [] := List.append_eq_nil_iff.1 he.check
      exact he.everywhere.here.ty_array hcheck.1 hcheck.2 ha
    | object | construct | newArray | allocate => cases hkind
    | method _ hgives =>
      rcases hgives.isMethod with ⟨cls, name, vs, hcall⟩ | ⟨r, name, vs, hcall⟩
      · cases hkind.symm.trans hcall
      · cases hkind.symm.trans hcall

end Scope

namespace Program

variable {p : Program}

/-- Every construct of a program that compiles has lines in the assembly text. -/
theorem instr_ok (hs : (p.compile {}).success) : ∀ tm ∈ p.lower.1.methods, ∀ i ∈ tm.code,
    ∃ k part, (Jasmin.instr p.lower.1 tm k i).1 = .ok part := by
  intro tm htm
  obtain ⟨-, -, hassemble⟩ := success_iff.1 hs
  obtain ⟨n, hb⟩ := Jasmin.mem_bodies_of_mem (c := p.lower.1) (n := 0) htm
  have hf := List.flatMap_eq_nil_iff.1 hassemble _ hb
  obtain ⟨hok, -⟩ := Jasmin.track_eq_nil (Prod.ext (y := ((Jasmin.track tm.name {} false
    (Jasmin.outcomes p.lower.1 tm n tm.code).1).1, [])) rfl hf)
  exact Jasmin.ok_of_outcomes hok

def Based (p : Program) : Prop :=
  ∀ m ∈ p.cls.methods, ∀ e ∈ Stmt.exprsAll m.body, e.Everywhere (p.bodyScope m).Based

/-- In the code of a program that compiles, receivers are objects, and arrays are arrays as long as
their types do not depend on classes that are not visible. -/
theorem keeps_references (hs : (p.compile {}).success) :
    (∀ tm ∈ p.lower.1.methods, ∀ i ∈ tm.code, i.CallsObjects) ∧
      (p.Based → ∀ tm ∈ p.lower.1.methods, ∀ i ∈ tm.code, i.UsesArrays) := by
  constructor
  · intro tm htm i hi
    obtain ⟨n, part, hpart⟩ := instr_ok hs tm htm i hi
    exact Jasmin.callsObjects_of_instr hpart
  · intro hb
    exact forall_code (success_iff.1 hs).1 hb (.of_super _) .of_return fun m _ i hi ↦
      hi.usesArrays fun _ _ hmethod ↦ wellFormed hmethod

/-- `int f(int[] a) { return a[0]; }` and
`int m() { int[] a; a = new int[3]; a[0] = [1, 2].length; return this.f(a); }`. -/
theorem keeps_references_array :
    let pos := Position.point 1 1
    let int : TypeExpr := ⟨.int, false, false, pos⟩
    let ints : TypeExpr := ⟨.int, true, false, pos⟩
    let a : Ident := ⟨"a", pos⟩
    let read := Expr.index (.ident a) (.int 0 pos) pos
    let size := Expr.length (.array [.int 1 pos, .int 2 pos] pos) pos
    let call := Expr.call (.this pos) ⟨"f", pos⟩ [.ident a] pos
    let f : MethodDecl :=
      { isPublic := true, isStatic := false, ret := int, name := ⟨"f", pos⟩
        params := [⟨ints, a, pos⟩], body := [.return (some read) pos], pos }
    let m : MethodDecl :=
      { isPublic := true, isStatic := false, ret := int, name := ⟨"m", pos⟩, params := [], pos
        body := [.var ⟨ints, a, pos⟩, .assign a none (.newArray (.int 3 pos) pos) pos,
          .assign a (some (.int 0 pos)) size pos, .return (some call) pos] }
    let p : Program := ⟨[], ⟨⟨"A", pos⟩, none, [], [f, m], pos⟩⟩
    (p.compile {}).success ∧ p.Based ∧
      ∀ tm ∈ p.lower.1.methods, ∀ i ∈ tm.code, i.CallsObjects ∧ i.UsesArrays := by
  intro pos int ints a read size call f m p
  have hs : (p.compile {}).success := by decide +kernel +zetaReduce
  have hread : read.Everywhere (p.bodyScope f).Based :=
    .two (.inl ⟨Ty.arrayOf .int, by decide +kernel +zetaReduce⟩) rfl (.leaf trivial rfl)
      (.leaf trivial rfl)
  have hsize : size.Everywhere (p.bodyScope m).Based :=
    .one (.inr ⟨_, _, rfl⟩) rfl (.two trivial rfl (.leaf trivial rfl) (.leaf trivial rfl))
  have hcall : call.Everywhere (p.bodyScope m).Based :=
    .two trivial rfl (.leaf trivial rfl) (.leaf trivial rfl)
  have hb : p.Based := by
    refine forall_mem_two.2 ⟨List.forall_mem_singleton.2 hread, ?_⟩
    refine List.forall_mem_cons.2 ⟨.one trivial rfl (.leaf trivial rfl), ?_⟩
    exact List.forall_mem_cons.2 ⟨.leaf trivial rfl, forall_mem_two.2 ⟨hsize, hcall⟩⟩
  obtain ⟨hobjects, harrays⟩ := keeps_references hs
  exact ⟨hs, hb, fun tm htm i hi ↦ ⟨hobjects tm htm i hi, harrays hb tm htm i hi⟩⟩

/-- `class A extends B` with `void m() { int x; x = q.length; }`, where `q` is inherited: its length
is taken as if it were a number. -/
theorem measures_inherited_number :
    let pos := Position.point 1 1
    let x : Ident := ⟨"x", pos⟩
    let m : MethodDecl :=
      { isPublic := true, isStatic := false, ret := ⟨.void, false, false, pos⟩, name := ⟨"m", pos⟩
        params := [], pos
        body := [.var ⟨⟨.int, false, false, pos⟩, x, pos⟩,
          .assign x none (.length (.ident ⟨"q", pos⟩) pos) pos] }
    let p : Program := ⟨[], ⟨⟨"A", pos⟩, some ⟨"B", pos⟩, [], [m], pos⟩⟩
    (p.compile {}).success ∧
      ¬ ∀ tm ∈ p.lower.1.methods, ∀ i ∈ tm.code, i.UsesArrays := by
  intro pos x m p
  refine ⟨by decide +kernel +zetaReduce, fun harrays ↦ ?_⟩
  have hlength : ∃ tm ∈ p.lower.1.methods, .assign (.var "tmp1" .int) .int
      (.call ⟨.length (.var "tmp0" .int), .int⟩) ∈ tm.code := by decide +kernel +zetaReduce
  obtain ⟨tm, htm, hi⟩ := hlength
  obtain ⟨t, ht⟩ := (harrays tm htm _ hi).length _ _ rfl rfl
  exact absurd ht nofun

end Program

end MiniJava

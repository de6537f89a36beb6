import MiniJava.Proofs.Assembly.Lines
import MiniJava.Proofs.Checking.Throughout
import MiniJava.Proofs.Lowering.Values

namespace MiniJava

open Tac Lower

def Tac.Instr.Returns (ret : ValType) : Instr → Prop
  | .return t none => t = ret ∧ ret = .void
  | .return t (some x) => t = ret ∧ ret ≠ .void ∧ x.IsAtom
  | _ => True

namespace Jasmin

def JType.returnKind : JType → Option Kind
  | .void => none
  | .int | .boolean => some .int
  | .object _ | .array _ => some .ref

def headerDescriptor (c : Tac.Class) (m : Tac.Method) : Descriptor :=
  if m.isConstructor then ⟨[], .void⟩ else c.methodDescriptor m

def Opcode.IsLoad : Opcode → Prop
  | .iconst _ | .bipush _ | .sipush _ | .ldc _ | .load .. => True
  | _ => False

structure Returning (kind : Option Kind) (part : List (Line Opcode)) : Prop where
  kind_eq : ∀ {pc : Nat} {k δ}, part[pc]? = some (.op (.return k) δ) → k = kind
  loaded : ∀ {pc : Nat} {k δ}, part[pc]? = some (.op (.return (some k)) δ) →
    ∃ q o e, pc = q + 1 ∧ part[q]? = some (.op o e) ∧ o.IsLoad

def Line.NoReturn : Line Opcode → Prop
  | .op (.return _) _ => False
  | _ => True

/-- No path runs off the end of a body, and its returns are those that a descriptor demands. -/
structure Body.ReturnSafe (b : Body) (desc : Descriptor) : Prop where
  stays : ∀ {pc d}, Visits b.lines pc d → pc < b.lines.length
  returning : Returning desc.ret.returnKind b.lines

/-- The machine never comes to the end of the lines of a safe body. -/
theorem Body.ReturnSafe.pc_lt {b : Body} {desc : Descriptor} (h : b.ReturnSafe desc) {V W : Type}
    {J : Interp V W} {L : Locals V} {w : W} {a : Config V W}
    (hr : Reaches J b.lines ⟨0, [], L, w⟩ a) : a.pc < b.lines.length := h.stays (.of_reaches hr)

variable {c : Tac.Class} {m : Tac.Method} {n : Nat} {kind : Option Kind}
  {part part' : List (Line Opcode)} {ret : ValType} {code : List Instr}

theorem methodHeader_eq (c : Tac.Class) (m : Tac.Method) :
    ∃ front, methodHeader c m = front ++ (headerDescriptor c m).text := by
  unfold methodHeader headerDescriptor
  split
  · exact ⟨".method public <init>", rfl⟩
  · refine ⟨".method" ++ (if m.isPublic then " public" else "") ++
      (if m.isStatic then " static" else "") ++ s!" {m.name}", ?_⟩
    exact (String.append_assoc ..).symm

theorem Visits.lt_length {k : Option Kind} {δ : Int}
    (hlast : part.getLast? = some (.op (.return k) δ)) {pc : Nat} {d : Int}
    (h : Visits part pc d) : pc < part.length := by
  have hreturn {q : Nat} (hq : q + 1 = part.length) : part[q]? = some (.op (.return k) δ) := by
    rw [← hlast, List.getLast?_eq_getElem?, ← hq, Nat.add_sub_cancel]
  -- Only the line at the end could lead past it, and that one returns.
  have hnext {q : Nat} {x : Line Opcode} (hx : part[q]? = some x)
      (hne : x ≠ .op (.return k) δ) : q + 1 < part.length := by
    have hlt := (List.getElem?_eq_some_iff.1 hx).1
    refine Nat.lt_of_le_of_ne hlt fun hq ↦ hne ?_
    exact Option.some.inj (hx.symm.trans (hreturn hq))
  cases h with
  | start =>
    refine List.length_pos_iff.2 ?_
    rintro rfl
    exact absurd hlast nofun
  | label _ hx | comment _ hx => exact hnext hx nofun
  | fall _ hx hfalls =>
    refine hnext hx ?_
    rintro ⟨⟩
    exact hfalls
  | jump _ _ _ hlabel => exact (List.getElem?_eq_some_iff.1 hlabel).1

namespace Returning

theorem append (h : Returning kind part) (h' : Returning kind part') :
    Returning kind (part ++ part') where
  kind_eq {pc k δ} hx := by
    rcases Nat.lt_or_ge pc part.length with hlt | hge
    · rw [List.getElem?_append_left hlt] at hx
      exact h.kind_eq hx
    · rw [List.getElem?_append_right hge] at hx
      exact h'.kind_eq hx
  loaded {pc k δ} hx := by
    rcases Nat.lt_or_ge pc part.length with hlt | hge
    · rw [List.getElem?_append_left hlt] at hx
      obtain ⟨q, o, e, rfl, hq, ho⟩ := h.loaded hx
      exact ⟨q, o, e, rfl, by rwa [List.getElem?_append_left (by omega)], ho⟩
    · rw [List.getElem?_append_right hge] at hx
      obtain ⟨q, o, e, hpc, hq, ho⟩ := h'.loaded hx
      refine ⟨part.length + q, o, e, by omega, ?_, ho⟩
      rwa [List.getElem?_append_right (by omega), Nat.add_sub_cancel_left]

theorem of_lines (h : Lines Line.NoReturn part) : Returning kind part where
  kind_eq hx := (h _ (List.mem_of_getElem? hx)).elim
  loaded hx := (h _ (List.mem_of_getElem? hx)).elim

theorem nil : Returning kind [] := of_lines nofun

/-- A return without a value needs nothing before it. -/
theorem bare {δ : Int} : Returning none [.op (.return none) δ] where
  kind_eq {pc k δ'} hx := by
    cases pc with
    | zero =>
      obtain ⟨⟩ := Option.some.inj hx
      rfl
    | succ pc => simp at hx
  loaded {pc k δ'} hx := by
    cases pc with
    | zero => exact absurd (Option.some.inj hx) nofun
    | succ pc => simp at hx

theorem after_load {o : Opcode} {e δ : Int} {k : Kind} (ho : o.IsLoad) :
    Returning (some k) [.op o e, .op (.return (some k)) δ] where
  kind_eq {pc k' δ'} hx := by
    match pc with
    | 0 =>
      obtain ⟨⟩ := Option.some.inj hx
      exact ho.elim
    | 1 =>
      obtain ⟨⟩ := Option.some.inj hx
      rfl
    | pc + 2 => simp at hx
  loaded {pc k' δ'} hx := by
    match pc with
    | 0 =>
      obtain ⟨⟩ := Option.some.inj hx
      exact ho.elim
    | 1 => exact ⟨0, o, e, rfl, rfl, ho⟩
    | pc + 2 => simp at hx

end Returning

theorem returnKind_jtype {t : ValType} (h : t ≠ .void) :
    (c.jtype t).returnKind = some (kindOf t) := by
  cases t with
  | void => exact absurd rfl h
  | int | bool | string | array | cls => rfl

theorem load_of_isAtom {x : Operand} (hx : x.IsAtom) (h : load m x = .ok part) :
    ∃ o e, part = [.op o e] ∧ o.IsLoad := by
  cases x with
  | lit v t =>
    refine ⟨_, 1, (Except.ok.inj h).symm, ?_⟩
    unfold Opcode.constant
    split_ifs <;> trivial
  | var name t | param j name t =>
    obtain ⟨ki, -, h⟩ := bind_eq_ok.1 h
    exact ⟨_, 1, (Except.ok.inj h).symm, trivial⟩
  | this cls => exact ⟨_, 1, (Except.ok.inj h).symm, trivial⟩
  | elem => exact hx.elim
  | cls => exact absurd h nofun

theorem keeps_noReturn : Keeps m Line.NoReturn fun _ ↦ True where
  inner l hl := by
    cases l with
    | op o δ => cases o <;> trivial
    | label | comment => trivial
  receiver := trivial
  unsupported _ := trivial

theorem placed_noReturn (x : Operand) : Placed m Line.NoReturn (fun _ ↦ True) x := by
  cases x with
  | var | param => exact Yields.of_forall (fun _ ↦ ⟨trivial, trivial⟩) (fun _ ↦ trivial) _
  | lit | elem | this | cls => trivial

theorem returning_instr {i : Instr} (h : (instr c m n i).1 = .ok part) (hi : i.Returns ret) :
    Returning (c.jtype ret).returnKind part := by
  by_cases hreturn : i.isReturn
  · cases i with
    | assign | putField | call | branch | goto | label | invalid => exact absurd hreturn nofun
    | «return» t x =>
      cases x with
      | none =>
        obtain ⟨rfl, rfl⟩ := hi
        obtain rfl := Except.ok.inj h
        exact .bare
      | some x =>
        obtain ⟨rfl, hvoid, hx⟩ := hi
        obtain ⟨v, hv, h⟩ := bind_eq_ok.1 h
        obtain rfl := Except.ok.inj h
        obtain ⟨o, e, rfl, ho⟩ := load_of_isAtom hx hv
        rw [returnKind_jtype hvoid, returnLine, if_neg hvoid]
        exact .after_load ho
  · have hlines : Yields (Lines Line.NoReturn) (fun _ ↦ True) (instr c m n i).1 := by
      refine keeps_noReturn.instr (fun x _ ↦ placed_noReturn x) ?_
      rintro t v rfl
      exact absurd rfl hreturn
    rw [h] at hlines
    exact .of_lines hlines

theorem returning_outcomes (hok : ∀ o ∈ (outcomes c m n code).1, ∃ part, o = .ok part)
    (h : ∀ i ∈ code, i.Returns ret) :
    Returning (c.jtype ret).returnKind ((outcomes c m n code).1.flatMap linesOf) := by
  induction code generalizing n with
  | nil => exact .nil
  | cons i is ih =>
    rw [outcomes_cons] at hok ⊢
    obtain ⟨⟨part, hpart⟩, hok⟩ := List.forall_mem_cons.1 hok
    obtain ⟨hi, his⟩ := List.forall_mem_cons.1 h
    rw [List.flatMap_cons, hpart]
    exact (returning_instr hpart hi).append (ih hok his)

theorem returnLine_eq (t : ValType) : ∃ k δ, returnLine t = .op (.return k) δ := by
  unfold returnLine
  split
  · exact ⟨_, _, rfl⟩
  · exact ⟨_, _, rfl⟩

/-- Code that ends with a return has lines that end with one. -/
theorem getLast?_outcomes (hok : ∀ o ∈ (outcomes c m n code).1, ∃ part, o = .ok part)
    (h : code.getLast?.any Instr.isReturn) :
    ∃ k δ, ((outcomes c m n code).1.flatMap linesOf).getLast? = some (.op (.return k) δ) := by
  induction code generalizing n with
  | nil => exact absurd h nofun
  | cons i is ih =>
    rw [outcomes_cons] at hok ⊢
    obtain ⟨⟨part, hpart⟩, hok⟩ := List.forall_mem_cons.1 hok
    rw [List.flatMap_cons, hpart, List.getLast?_append]
    cases is with
    | nil =>
      obtain ⟨t, x, rfl⟩ : ∃ t x, i = .return t x := by
        cases i with
        | «return» t x => exact ⟨t, x, rfl⟩
        | assign | putField | call | branch | goto | label | invalid => exact absurd h nofun
      obtain ⟨k, δ, hline⟩ := returnLine_eq t
      have hlast : part.getLast? = some (returnLine t) := by
        cases x with
        | none =>
          obtain rfl := Except.ok.inj hpart
          rfl
        | some x =>
          obtain ⟨v, -, hpart⟩ := bind_eq_ok.1 hpart
          obtain rfl := Except.ok.inj hpart
          exact List.getLast?_concat
      exact ⟨k, δ, hline ▸ hlast⟩
    | cons i' is =>
      obtain ⟨k, δ, hrest⟩ := ih hok (by simpa using h)
      exact ⟨k, δ, by rw [hrest]; rfl⟩

theorem ret_headerDescriptor (hctor : m.isConstructor → m.ret = .void) :
    (headerDescriptor c m).ret = c.jtype m.ret := by
  unfold headerDescriptor
  split
  · next h => rw [hctor h]; rfl
  · rfl

/-- A body without findings returns as its header says, if its code does. -/
theorem body_returnSafe (hf : (body c n m).findings = []) (h : ∀ i ∈ m.code, i.Returns m.ret)
    (hctor : m.isConstructor → m.ret = .void) (hend : m.isConstructor = false → m.endsWithReturn) :
    (body c n m).ReturnSafe (headerDescriptor c m) := by
  obtain ⟨hok, -⟩ := track_eq_nil (Prod.ext (y := ((track m.name {} false
    (outcomes c m n m.code).1).1, [])) rfl hf)
  have hcode := returning_outcomes hok h
  have hlines := lines_body c m n
  rw [← ret_headerDescriptor hctor] at hcode
  cases hadd : m.isConstructor && !m.endsWithReturn with
  | true =>
    have hret : (headerDescriptor c m).ret = .void := by
      have hvoid := hctor (Bool.and_eq_true_iff.1 hadd).1
      rw [ret_headerDescriptor hctor, hvoid]
      rfl
    rw [hadd, if_pos rfl] at hlines
    refine ⟨fun hv ↦ hv.lt_length (hlines ▸ List.getLast?_concat), ?_⟩
    rw [hlines]
    rw [hret] at hcode ⊢
    exact hcode.append .bare
  | false =>
    have hreturn : m.endsWithReturn := by
      cases hc : m.isConstructor with
      | true => simpa [hc] using hadd
      | false => exact hend hc
    rw [hadd, if_neg nofun, List.append_nil] at hlines
    obtain ⟨k, δ, hlast⟩ := getLast?_outcomes hok hreturn
    exact ⟨fun hv ↦ hv.lt_length (hlines ▸ hlast), hlines ▸ hcode⟩

end Jasmin

namespace Scope

variable {s : Scope} {P : Expr → Prop} {m : Signature} {i : Instr}

theorem Issued.returns (hm : s.method = some m)
    (h : s.Issued (fun e _ ↦ s.Checked P e) (s.CheckedStmt P) i) : i.Returns (.ofTy m.ret) := by
  have hret : s.returnTy = .ofTy m.ret := by simp [returnTy, hm]
  cases h with
  | returnNone hs =>
    have hcheck := hs.check
    simp only [checkStmt, checkReturn, hm] at hcheck
    have hvoid : m.ret = .void := by
      by_contra hne
      simp [hne] at hcheck
    exact ⟨hret, (ValType.ofTy_eq_void_iff _).2 hvoid⟩
  | @returnSome e pos v hs hv =>
    have hcheck := hs.check
    simp only [checkStmt, checkReturn, hm, List.append_eq_nil_iff] at hcheck
    refine ⟨hret, fun hty ↦ ?_, hv.isAtom⟩
    simp [(ValType.ofTy_eq_void_iff _).1 hty] at hcheck
  | read | arith | less | and | skip | last | not | index | length | object | construct | newArray
  | allocate | element | call | packed | argument | undeclared | unknownClass | unassignable | goto
  | label | test | compare | effect | store | put | storeAt => trivial

theorem isReturn_append {code code' : List Instr} (h : code'.getLast?.any Instr.isReturn) :
    (code ++ code').getLast?.any Instr.isReturn := by
  cases hlast : code'.getLast? with
  | none => simp [hlast] at h
  | some i =>
    rw [hlast] at h
    rwa [List.getLast?_append, hlast]

theorem isReturn_lowerReturn (value : Option Expr) (n : Numbering) :
    (s.lowerReturn value n).code.getLast?.any Instr.isReturn := by
  cases value with
  | none => rfl
  | some e => simp [lowerReturn, Instr.isReturn]

theorem isReturn_lowerStmts {body : List Stmt} (h : body.getLast?.any Stmt.isReturn)
    (n : Numbering) : (s.lowerStmts body n).code.getLast?.any Instr.isReturn := by
  induction body generalizing n with
  | nil => exact absurd h nofun
  | cons stmt rest ih =>
    have hcode : (s.lowerStmts (stmt :: rest) n).code =
        (s.lowerStmt stmt n).code ++ (s.lowerStmts rest (s.lowerStmt stmt n).next).code := rfl
    rw [hcode]
    cases rest with
    | nil =>
      obtain ⟨value, pos, rfl⟩ : ∃ value pos, stmt = .return value pos := by
        cases stmt with
        | «return» value pos => exact ⟨value, pos, rfl⟩
        | var | block | ifThen | ifElse | «while» | expr | assign => exact absurd h nofun
      rw [lowerStmts, Lower.pure_apply, List.append_nil]
      exact isReturn_lowerReturn value n
    | cons stmt' rest => exact isReturn_append (ih (by simpa using h) _)

end Scope

theorem isReturn_closeBody {ret : ValType} {code : List Instr}
    (h : ret ≠ .void → code.getLast?.any Instr.isReturn) :
    (closeBody ret code).getLast?.any Instr.isReturn := by
  unfold closeBody
  split
  · exact Scope.isReturn_append rfl
  · next hopen =>
    by_cases hvoid : ret = .void
    · simpa [hvoid] using hopen
    · exact h hvoid

namespace Program

variable {p : Program}

/-- The body of an accepted method without a result type may end anywhere, any other ends with a
return statement. -/
theorem isReturn_of_check {m : MethodDecl} (hn : (p.cls.methods.map (·.name.name)).Nodup)
    (h : p.check = []) (hm : m ∈ p.cls.methods) (hvoid : m.ret.ty ≠ .void) :
    m.body.getLast?.any Stmt.isReturn := by
  have hmethod := List.flatMap_eq_nil_iff.1 h m hm
  rw [MethodDecl.check, method?_eq hn hm] at hmethod
  obtain ⟨hshape, -⟩ := List.append_eq_nil_iff.1 hmethod
  obtain ⟨-, hlast⟩ := List.append_eq_nil_iff.1 hshape
  simpa [MethodDecl.signature, hvoid] using hlast

/-- In a compiled program no path runs off the end of a method, and each return is the one that the
method's header demands. -/
theorem return_safe (hn : (p.cls.methods.map (·.name.name)).Nodup)
    (hs : (p.compile {}).success) :
    ∀ mb ∈ p.lower.1.methods.zip (Jasmin.bodies p.lower.1 0 p.lower.1.methods),
      (∃ front, Jasmin.methodHeader p.lower.1 mb.1 =
        front ++ (Jasmin.headerDescriptor p.lower.1 mb.1).text) ∧
      mb.2.ReturnSafe (Jasmin.headerDescriptor p.lower.1 mb.1) := by
  rintro ⟨tm, b⟩ hmb
  obtain ⟨htm, hb, k, rfl⟩ := Jasmin.mem_zip_bodies hmb
  obtain ⟨hcheck, -, hassemble⟩ := success_iff.1 hs
  have hfindings : (Jasmin.body p.lower.1 k tm).findings = [] :=
    List.flatMap_eq_nil_iff.1 hassemble _ hb
  refine ⟨Jasmin.methodHeader_eq _ _, ?_⟩
  rcases List.mem_cons.1 htm with rfl | htm
  · exact Jasmin.body_returnSafe hfindings (List.forall_mem_singleton.2 trivial) (fun _ ↦ rfl) nofun
  · obtain ⟨m, hm, n, rfl⟩ := mem_lowerMethods htm
    have hmethod : (p.bodyScope m).method = some m.signature := method?_eq hn hm
    have hissued := issued_code (P := fun _ ↦ True) hcheck hm
      (fun e _ ↦ .of_forall (fun _ ↦ trivial) e) n
    refine Jasmin.body_returnSafe hfindings ?_ nofun fun _ ↦ ?_
    · exact forall_closeBody (fun hvoid ↦ ⟨hvoid.symm, hvoid⟩) fun i hi ↦
        (hissued i hi).returns hmethod
    · refine isReturn_closeBody fun hvoid ↦ Scope.isReturn_lowerStmts ?_ n
      exact isReturn_of_check hn hcheck hm (mt (ValType.ofTy_eq_void_iff _).2 hvoid)

/-- `void v(boolean b) { while (b) { } }` and `int[] f(int[] xs) { return xs; }`. -/
theorem return_safe_loop :
    let pos := Position.point 1 1
    let b : Ident := ⟨"b", pos⟩
    let xs : Ident := ⟨"xs", pos⟩
    let ints : TypeExpr := ⟨.int, true, false, pos⟩
    let v : MethodDecl :=
      { isPublic := true, isStatic := false, ret := ⟨.void, false, false, pos⟩, name := ⟨"v", pos⟩
        params := [⟨⟨.boolean, false, false, pos⟩, b, pos⟩]
        body := [.while (.ident b) (.block [] pos) pos], pos }
    let f : MethodDecl :=
      { isPublic := true, isStatic := false, ret := ints, name := ⟨"f", pos⟩
        params := [⟨ints, xs, pos⟩], body := [.return (some (.ident xs)) pos], pos }
    let p : Program := ⟨[], ⟨⟨"A", pos⟩, none, [], [v, f], pos⟩⟩
    (p.cls.methods.map (·.name.name)).Nodup ∧ (p.compile {}).success ∧
      p.lower.1.methods.map (fun m ↦ (Jasmin.headerDescriptor p.lower.1 m).ret.returnKind) =
        [none, none, some .ref] ∧
      ∀ mb ∈ p.lower.1.methods.zip (Jasmin.bodies p.lower.1 0 p.lower.1.methods),
        (∃ front, Jasmin.methodHeader p.lower.1 mb.1 =
          front ++ (Jasmin.headerDescriptor p.lower.1 mb.1).text) ∧
        mb.2.ReturnSafe (Jasmin.headerDescriptor p.lower.1 mb.1) := by
  intro pos b xs ints v f p
  have hn : (p.cls.methods.map (·.name.name)).Nodup := by decide +kernel +zetaReduce
  have hs : (p.compile {}).success := by decide +kernel +zetaReduce
  exact ⟨hn, hs, by decide +kernel +zetaReduce, return_safe hn hs⟩

end Program

end MiniJava

import MiniJava.Proofs.Checking.Arguments
import MiniJava.Proofs.Lowering.Issued
import MiniJava.Proofs.Lowering.Writes

namespace MiniJava

open Tac Lower

def Tac.Instr.writes (x : String) (i : Instr) : Bool := i.written? == some x

@[simp] theorem Tac.Instr.writes_assign (x y : String) (ty ty' : ValType) (rhs : Rhs) :
    (Instr.assign (.var y ty) ty' rhs).writes x = (y == x) := by
  simp [Instr.writes, Instr.written?, Operand.root?]

def Tac.Instr.storeAt (array : Operand) (element : ValType) (i : Nat) (v : Operand) : Instr :=
  .assign (.elem array (.int (Int32.ofNat i)) element) element (.value v)

namespace Lower

def endOf : Numbering → List (Lowered Operand) → Numbering
  | n, [] => n
  | _, l :: ls => endOf l.next ls

def storing (array : Operand) (element : ValType) : Nat → List (Lowered Operand) → List Instr
  | _, [] => []
  | i, l :: ls => l.code ++ .storeAt array element i l.value :: storing array element (i + 1) ls

def gathering (ty element : ValType) (size : Int32) (t x : String) (ls : List (Lowered Operand)) :
    List Instr :=
  .assign (.var t ty) ty (.call ⟨.newArray (.int size), ty⟩) ::
    .assign (.var x ty) ty (.value (.var t ty)) :: storing (.var x ty) element 0 ls

/-- Some code ends in gathering values in an array of the right size. Nothing else in the code
writes to the array: the values are stored once each, every one at its own place. -/
structure Gathers (code : List Instr) (ty element : ValType) (size : Int32) (t x : String)
    (ls : List (Lowered Operand)) : Prop where
  shape : ∃ before, code = before ++ gathering ty element size t x ls
  count : size.toInt = ls.length
  allocated : code.filter (·.writes t) =
    [.assign (.var t ty) ty (.call ⟨.newArray (.int size), ty⟩)]
  stored : ∃ stores, code.filter (·.writes x) =
      .assign (.var x ty) ty (.value (.var t ty)) :: stores ∧ stores.length = ls.length ∧
    ∀ (j : Nat) l, ls[j]? = some l → ∃ i : Int32, i.toInt = j ∧
      stores[j]? = some (.assign (.elem (.var x ty) (.int i) element) element (.value l.value))

end Lower

namespace Scope

variable (s : Scope)

def lowerings : Numbering → List (Expr × Option ValType) → List (Lowered Operand)
  | _, [] => []
  | n, (e, hint) :: ps =>
    let l := s.lower e hint n
    l :: lowerings l.next ps

def lowerReceiver (recv : Expr) : Lower (Option Operand) :=
  match s.className? recv with
  | some _ => return none
  | none => return some (← s.lower recv none)

/-- How the last arguments are passed for a parameter of any number of values: a single one that
may be an array as it is, any others in a new array. -/
inductive PassesTail (p : Parameter) (tail : List Expr) (n : Numbering) (code : List Instr) :
    Operand → Prop
  | alone {e : Expr} : tail = [e] → (∀ ty, s.typing e = .known ty → ty.isArray) →
      PassesTail p tail n code (s.lower e (some (.ofTy p.symbol.ty)) n).value
  | gathered {n' : Numbering} {t x : String} {size : Int32} :
      Gathers code (.ofTy p.symbol.ty) p.element size t x
        (s.lowerings n' (tail.map (·, some p.element))) →
      PassesTail p tail n code (.var x (.ofTy p.symbol.ty))

def lowerFixed (m : Signature) (args : List Expr) (n : Numbering) : List (Lowered Operand) :=
  s.lowerings n (inOrder (paramHints (some m)) (args.take m.fixedCount))

/-- Operands for arguments that are lowered from `n` on: one for each parameter that takes a single
value, then at most one for all the others. -/
structure PassesArgs (m : Signature) (args : List Expr) (n : Numbering) (code : List Instr)
    (passed : List Operand) : Prop where
  count : passed.length = m.params.length
  fixed : (s.lowerFixed m args n).length = m.fixedCount
  operands : ∃ rest, passed = (s.lowerFixed m args n).map (·.value) ++ rest ∧
    (m.varargs? = none → rest = []) ∧
    ∀ p, m.varargs? = some p → ∃ v, rest = [v] ∧
      s.PassesTail p (args.drop m.fixedCount) (endOf n (s.lowerFixed m args n)) code v

variable {s} {n : Numbering} {hints : List ValType} {es : List Expr}

theorem length_lowerings (ps : List (Expr × Option ValType)) :
    (s.lowerings n ps).length = ps.length := by
  induction ps generalizing n with
  | nil => rfl
  | cons p ps ih => exact congrArg (· + 1) ih

theorem length_inOrder : (inOrder hints es).length = es.length := by
  induction es generalizing hints with
  | nil => rfl
  | cons e es ih => exact congrArg (· + 1) ih

theorem lowerings_append (ps qs : List (Expr × Option ValType)) :
    s.lowerings n (ps ++ qs) =
      s.lowerings n ps ++ s.lowerings (endOf n (s.lowerings n ps)) qs := by
  induction ps generalizing n with
  | nil => rfl
  | cons p ps ih => exact congrArg (_ :: ·) ih

theorem lowerInOrder_apply (hints : List ValType) (es : List Expr) (n : Numbering) :
    lowerInOrder hints (es.map s.lower) n =
      let ls := s.lowerings n (inOrder hints es)
      { value := ls.map (·.value)
        code := ls.flatMap (·.code)
        findings := ls.flatMap (·.findings)
        next := endOf n ls } := by
  induction es generalizing hints n with
  | nil => rfl
  | cons e es ih =>
    simp only [List.map_cons, lowerInOrder, bind_apply, ih, pure_apply, List.append_nil]
    rfl

theorem code_storeFrom (array : Operand) (element : ValType) (i : Nat) (es : List Expr)
    (n : Numbering) :
    (storeFrom array element i (es.map s.lower) n).code =
      storing array element i (s.lowerings n (es.map (·, some element))) := by
  induction es generalizing i n with
  | nil => rfl
  | cons e es ih => exact congrArg (fun code ↦ _ ++ _ :: code) (ih (i + 1) _)

/-- What is written while expressions are lowered was made meanwhile. -/
theorem written_lowerings (ps : List (Expr × Option ValType)) (n : Numbering) :
    n.temp ≤ (endOf n (s.lowerings n ps)).temp ∧
      ∀ l ∈ s.lowerings n ps, ∀ i ∈ l.code, ∀ y ∈ i.written?,
        MadeBetween n.temp (endOf n (s.lowerings n ps)).temp y := by
  induction ps generalizing n with
  | nil => exact ⟨Nat.le_refl _, nofun⟩
  | cons p ps ih =>
    obtain ⟨hn, hcode, -⟩ := writes_lower p.1 p.2 [] n.temp n (Nat.le_refl _) nofun
    obtain ⟨hn', hcode'⟩ := ih (s.lower p.1 p.2 n).next
    refine ⟨Nat.le_trans hn hn', List.forall_mem_cons.2 ⟨?_, ?_⟩⟩
    · exact fun i hi y hy ↦ (hcode i hi y hy).mono (Nat.le_refl _) hn'
    · exact fun l hl i hi y hy ↦ (hcode' l hl i hi y hy).mono hn (Nat.le_refl _)

/-- A call is made of its receiver and then of its arguments. -/
theorem lowerCall_eq (recv : Expr) (method : Ident) (args : List Expr) (hint : Option ValType)
    (n : Numbering) :
    let r := s.lowerReceiver recv n
    let a := s.lowerArgs (s.target? recv method.name) args (args.map s.lower) r.next
    (s.lowerCall recv method args hint n).value.kind.args = a.value ∧
      (s.lowerCall recv method args hint n).code = r.code ++ a.code := by
  unfold lowerCall lowerCallWith lowerReceiver
  rw [s.lowerEach_eq_map]
  cases s.className? recv with
  | some cls => simp only [value_bind, code_bind, pure_apply, CallKind.args, List.append_nil,
      List.nil_append, and_self]
  | none => simp only [value_bind, code_bind, next_bind, pure_apply, CallKind.args, List.append_nil,
      and_self]

theorem written_lowerReceiver (recv : Expr) (n : Numbering) :
    n.temp ≤ (s.lowerReceiver recv n).next.temp ∧
      ∀ i ∈ (s.lowerReceiver recv n).code, ∀ y ∈ i.written?,
        MadeBetween n.temp (s.lowerReceiver recv n).next.temp y := by
  have hw : Writes [] (s.lowerReceiver recv) fun _ ↦ [] := by
    unfold lowerReceiver
    split
    · exact .pure nofun
    · exact (writes_lower recv none []).bind fun _ ↦ .pure nofun
  obtain ⟨hn, hcode, -⟩ := hw n.temp n (Nat.le_refl _) nofun
  exact ⟨hn, hcode⟩

end Scope

namespace Lower

variable {element : ValType} {x : String} {code : List Instr}

theorem filter_writes_eq_nil (h : ∀ i ∈ code, ∀ y ∈ i.written?, y ≠ x) :
    code.filter (·.writes x) = [] :=
  List.filter_eq_nil_iff.2 fun i hi hx ↦ h i hi x (beq_iff_eq.1 hx) rfl

/-- Among stores, only those into the array of that name write to it. -/
theorem filter_writes_storing (array : Operand) (element : ValType) {ls : List (Lowered Operand)}
    (h : ∀ l ∈ ls, ∀ i ∈ l.code, ∀ y ∈ i.written?, y ≠ x) (i : Nat) :
    (storing array element i ls).filter (·.writes x) =
      if array.root? = some x then
        (ls.zipIdx i).map fun q ↦ .storeAt array element q.2 q.1.value
      else [] := by
  induction ls generalizing i with
  | nil => simp [storing]
  | cons l ls ih =>
    obtain ⟨hl, hls⟩ := List.forall_mem_cons.1 h
    have hstore (v : Operand) :
        (Instr.storeAt array element i v).writes x = (array.root? == some x) := rfl
    rw [storing, List.filter_append, filter_writes_eq_nil hl, List.nil_append, List.filter_cons,
      hstore, ih hls (i + 1)]
    by_cases hx : array.root? = some x
    · simp [hx]
    · simp [hx]

/-- Gathering values under new names is all that writes to their array. -/
theorem gathers_of_ne {ty : ValType} {t : String} {before : List Instr}
    {ls : List (Lowered Operand)} (hlen : ls.length < 2 ^ 31) (htx : t ≠ x)
    (hbefore : ∀ i ∈ before, ∀ y ∈ i.written?, y ≠ t ∧ y ≠ x)
    (hls : ∀ l ∈ ls, ∀ i ∈ l.code, ∀ y ∈ i.written?, y ≠ t ∧ y ≠ x) :
    Gathers (before ++ gathering ty element (Int32.ofNat ls.length) t x ls) ty element
      (Int32.ofNat ls.length) t x ls where
  shape := ⟨before, rfl⟩
  count := Int32.toInt_ofNat_of_lt hlen
  allocated := by
    rw [List.filter_append, filter_writes_eq_nil fun i hi y hy ↦ (hbefore i hi y hy).1, gathering]
    have hfill := filter_writes_storing (.var x ty) element
      (fun l hl i hi y hy ↦ (hls l hl i hi y hy).1) 0
    simp [hfill, Operand.root?, htx.symm]
  stored := by
    rw [List.filter_append, filter_writes_eq_nil fun i hi y hy ↦ (hbefore i hi y hy).2, gathering]
    have hfill := filter_writes_storing (.var x ty) element
      (fun l hl i hi y hy ↦ (hls l hl i hi y hy).2) 0
    refine ⟨ls.zipIdx.map fun q ↦ .storeAt (.var x ty) element q.2 q.1.value, ?_, by simp, ?_⟩
    · simp [hfill, Operand.root?, htx]
    · intro j l hj
      obtain ⟨hlt, -⟩ := List.getElem?_eq_some_iff.1 hj
      refine ⟨Int32.ofNat j, Int32.toInt_ofNat_of_lt (Nat.lt_trans hlt hlen), ?_⟩
      simp [hj, Instr.storeAt]

end Lower

namespace Scope

variable {s : Scope} {n : Numbering}

/-- Values that are packed are gathered in the array that stands for them. -/
theorem gathers_pack (ty : ValType) (es : List Expr) (hlen : es.length < 2 ^ 31)
    {before : List Instr} {a : Nat}
    (hbefore : ∀ i ∈ before, ∀ y ∈ i.written?, MadeBetween a n.temp y) :
    let element := ty.element?.getD .int
    ∃ t x n', (s.pack ty (es.map s.lower) n).value = .var x ty ∧
      Gathers (before ++ (s.pack ty (es.map s.lower) n).code) ty element (Int32.ofNat es.length)
        t x (s.lowerings n' (es.map (·, some element))) := by
  intro element
  let names := s.symbols.declaredNames
  let allocated := freshName names "tmp" n
  let packed := freshName names "__varargs_array_" allocated.next
  let ls := s.lowerings packed.next (es.map (·, some element))
  have hfresh {stem : String} (hs : stem ∈ tempStems) (n : Numbering) :
      n.temp ≤ (freshName names stem n).next.temp ∧
        MadeBetween n.temp (freshName names stem n).next.temp (freshName names stem n).value := by
    have hw : Writes [] (freshName names stem) fun x ↦ [x] := .freshName hs names
    obtain ⟨hn, -, hx⟩ := hw n.temp n (Nat.le_refl _) nofun
    exact ⟨hn, hx _ (List.mem_singleton_self _)⟩
  obtain ⟨hn, ht⟩ := hfresh (by decide : "tmp" ∈ tempStems) n
  obtain ⟨hn', hx⟩ := hfresh (by decide : "__varargs_array_" ∈ tempStems) allocated.next
  obtain ⟨-, hls⟩ := written_lowerings (s := s) (es.map (·, some element)) packed.next
  have hmap : (es.map s.lower).length = es.length := List.length_map _
  have hcount : ls.length = es.length := (length_lowerings _).trans (List.length_map _)
  have hcode : (s.pack ty (es.map s.lower) n).code =
      gathering ty element (Int32.ofNat es.length) allocated.value packed.value ls := by
    rw [gathering, ← code_storeFrom, ← hmap]
    exact congrArg (_ :: _ :: ·) (List.append_nil _)
  refine ⟨allocated.value, packed.value, packed.next, rfl, ?_⟩
  rw [hcode, ← hcount]
  refine gathers_of_ne (hcount ▸ hlen) (ht.ne hx (Nat.le_refl _)) ?_ ?_
  · exact fun i hi y hy ↦ ⟨(hbefore i hi y hy).ne ht (Nat.le_refl _), (hbefore i hi y hy).ne hx hn⟩
  · exact fun l hl i hi y hy ↦ ⟨(ht.ne (hls l hl i hi y hy) hn').symm,
      (hx.ne (hls l hl i hi y hy) (Nat.le_refl _)).symm⟩

variable {m : Signature} {args : List Expr} {pos : Position}

theorem inOrder_append (hints : List ValType) (es fs : List Expr) :
    inOrder hints (es ++ fs) = inOrder hints es ++ inOrder (hints.drop es.length) fs := by
  induction es generalizing hints with
  | nil => rfl
  | cons e es ih => simp [inOrder, ih, List.drop_tail]

theorem inOrder_of_lone {p : Parameter} {e : Expr} (hv : m.varargs? = some p)
    (hle : m.fixedCount ≤ args.length) (he : args.drop m.fixedCount = [e]) :
    inOrder (paramHints (some m)) args =
      inOrder (paramHints (some m)) (args.take m.fixedCount) ++
        [(e, some (.ofTy p.symbol.ty))] := by
  obtain ⟨hfixed, hpos⟩ := fixedCount_of_varargs hv
  obtain ⟨hparams, -⟩ := Signature.mem_of_varargs hv
  have hdrop : m.params.drop m.fixedCount = [p] := by
    rw [hparams, List.drop_left' (by rw [List.length_take]; omega)]
  have hhints : (paramHints (some m)).drop m.fixedCount = [.ofTy p.symbol.ty] := by
    rw [paramHints, Option.elim_some, ← List.map_drop, hdrop, List.map_singleton]
  conv_lhs => rw [← List.take_append_drop m.fixedCount args, inOrder_append, he]
  rw [List.length_take_of_le hle, hhints]
  rfl

theorem value_lowerArgs_of_not_packed (hp : s.packed? m args = none) :
    (s.lowerArgs (some m) args (args.map s.lower) n).value =
      (s.lowerings n (inOrder (paramHints (some m)) args)).map (·.value) := by
  unfold lowerArgs
  simp only [Option.bind_some, hp]
  exact congrArg Lowered.value (lowerInOrder_apply _ args n)

theorem lowerArgs_of_packed {p : Parameter} (hp : s.packed? m args = some p) :
    let fixed := s.lowerFixed m args n
    let packed := s.pack (.ofTy p.symbol.ty) ((args.drop m.fixedCount).map s.lower) (endOf n fixed)
    let passed := s.lowerArgs (some m) args (args.map s.lower) n
    passed.value = fixed.map (·.value) ++ [packed.value] ∧
      passed.code = fixed.flatMap (·.code) ++ packed.code := by
  have hfixed := (fixedCount_of_varargs (Option.filter_eq_some_iff.1 hp).1).1
  unfold lowerArgs
  simp only [Option.bind_some, hp, Option.elim_some, ← hfixed, ← List.map_take, ← List.map_drop,
    value_bind, code_bind, lowerInOrder_apply, pure_apply, List.append_nil]
  exact ⟨rfl, rfl⟩

section

variable {p : Parameter} {before : List Instr} {a : Nat}

/-- A single last argument is passed as it is if it is not packed. -/
theorem passesTail_of_not_packed (hv : m.varargs? = some p) (hp : s.packed? m args = none)
    (hle : m.fixedCount ≤ args.length) (code : List Instr) :
    ∃ v, (s.lowerArgs (some m) args (args.map s.lower) n).value =
        (s.lowerFixed m args n).map (·.value) ++ [v] ∧
      s.PassesTail p (args.drop m.fixedCount) (endOf n (s.lowerFixed m args n)) code v := by
  obtain ⟨e, he, hwhole⟩ := lone_of_packed? hv hp
  refine ⟨_, (value_lowerArgs_of_not_packed hp).trans ?_, .alone he hwhole⟩
  rw [inOrder_of_lone hv hle he, lowerings_append, List.map_append]
  rfl

theorem passesTail_of_packed (hp : s.packed? m args = some p) (hlen : args.length < 2 ^ 31)
    (ha : a ≤ n.temp) (hbefore : ∀ i ∈ before, ∀ y ∈ i.written?, MadeBetween a n.temp y) :
    let passed := s.lowerArgs (some m) args (args.map s.lower) n
    ∃ v, passed.value = (s.lowerFixed m args n).map (·.value) ++ [v] ∧
      s.PassesTail p (args.drop m.fixedCount) (endOf n (s.lowerFixed m args n))
        (before ++ passed.code) v := by
  intro passed
  obtain ⟨hvalue, hcode⟩ := lowerArgs_of_packed (n := n) hp
  obtain ⟨hn, hwritten⟩ := written_lowerings (s := s)
    (inOrder (paramHints (some m)) (args.take m.fixedCount)) n
  have hwritten' : ∀ i ∈ before ++ (s.lowerFixed m args n).flatMap (·.code), ∀ y ∈ i.written?,
      MadeBetween a (endOf n (s.lowerFixed m args n)).temp y := by
    refine List.forall_mem_append.2 ⟨?_, List.forall_mem_flatMap.2 ?_⟩
    · exact fun i hi y hy ↦ (hbefore i hi y hy).mono (Nat.le_refl _) hn
    · exact fun l hl i hi y hy ↦ (hwritten l hl i hi y hy).mono ha (Nat.le_refl _)
  obtain ⟨t, x, n', hpacked, hgathers⟩ := gathers_pack (.ofTy p.symbol.ty)
    (args.drop m.fixedCount) (by rw [List.length_drop]; omega) hwritten'
  rw [List.append_assoc] at hgathers
  refine ⟨_, hvalue, ?_⟩
  rw [hpacked, hcode]
  exact .gathered hgathers

theorem passes_lowerArgs (hlen : args.length < 2 ^ 31) (h : s.checkArguments m args pos = [])
    (ha : a ≤ n.temp) (hbefore : ∀ i ∈ before, ∀ y ∈ i.written?, MadeBetween a n.temp y) :
    let passed := s.lowerArgs (some m) args (args.map s.lower) n
    s.PassesArgs m args n (before ++ passed.code) passed.value := by
  intro passed
  obtain ⟨hle, heq⟩ := count_of_checkArguments h
  refine ⟨length_lowerArgs h (List.length_map _), ?_, ?_⟩
  · rw [lowerFixed, length_lowerings, length_inOrder, List.length_take_of_le hle]
  cases hv : m.varargs? with
  | none =>
    have hno : m.hasVarargs = false := by simp [Signature.hasVarargs, hv]
    have hcount : args.length = m.fixedCount := by simp [heq hno, Signature.fixedCount, hno]
    refine ⟨[], ?_, fun _ ↦ rfl, fun q hq ↦ absurd hq (Option.some_ne_none q).symm⟩
    rw [List.append_nil]
    refine (value_lowerArgs_of_not_packed (by simp [packed?, hv])).trans ?_
    rw [lowerFixed, ← hcount, List.take_length]
  | some p =>
    obtain ⟨v, hvalue, htail⟩ : ∃ v, passed.value = (s.lowerFixed m args n).map (·.value) ++ [v] ∧
        s.PassesTail p (args.drop m.fixedCount) (endOf n (s.lowerFixed m args n))
          (before ++ passed.code) v := by
      cases hp : s.packed? m args with
      | none => exact passesTail_of_not_packed hv hp hle _
      | some q =>
        obtain rfl : p = q := Option.some.inj (hv.symm.trans (Option.filter_eq_some_iff.1 hp).1)
        exact passesTail_of_packed hp hlen ha hbefore
    refine ⟨[v], hvalue, fun hno ↦ absurd hno (Option.some_ne_none p), fun q hq ↦ ⟨v, rfl, ?_⟩⟩
    exact Option.some.inj hq ▸ htail

end

/-- A call of a declared method whose arguments the checker accepts passes what the method's
parameters take. -/
theorem lowerCall_passes (recv : Expr) (method : Ident) (hlen : args.length < 2 ^ 31)
    (htarget : s.target? recv method.name = some m) (h : s.checkArguments m args pos = [])
    (hint : Option ValType) (n : Numbering) :
    let call := s.lowerCall recv method args hint n
    s.PassesArgs m args (s.lowerReceiver recv n).next call.code call.value.kind.args := by
  intro call
  obtain ⟨hargs, hcode⟩ := s.lowerCall_eq recv method args hint n
  obtain ⟨hn, hwritten⟩ := s.written_lowerReceiver recv n
  rw [htarget] at hargs hcode
  rw [hargs, hcode]
  exact passes_lowerArgs hlen h hn hwritten

end Scope

/-- `int f(int a, int... xs)`, called as `this.f(1, 2, this.f(3))`. -/
theorem Scope.lowerCall_passes_nested :
    let pos := Position.point 1 1
    let f : Signature :=
      { name := "f", ret := .int, locals := [], isPublic := true, isStatic := false
        params := [⟨⟨"a", .int⟩, false⟩, ⟨⟨"xs", Ty.arrayOf .int⟩, true⟩] }
    let s : Scope := ⟨{ className := "A", superName := none, methods := [f] }, some f⟩
    let args : List Expr := [.int 1 pos, .int 2 pos, .call (.this pos) ⟨"f", pos⟩ [.int 3 pos] pos]
    let call := s.lowerCall (.this pos) ⟨"f", pos⟩ args none {}
    s.target? (.this pos) "f" = some f ∧ s.checkArguments f args pos = [] ∧
      call.value.kind.args = [.int 1, .var "__varargs_array_1" (.array .int)] ∧
      s.PassesArgs f args {} call.code call.value.kind.args := by
  intro pos f s args call
  have htarget : s.target? (.this pos) "f" = some f := by decide +kernel +zetaReduce
  have hcheck : s.checkArguments f args pos = [] := by decide +kernel +zetaReduce
  refine ⟨htarget, hcheck, by decide +kernel +zetaReduce, ?_⟩
  exact Scope.lowerCall_passes (.this pos) ⟨"f", pos⟩ (by decide) htarget hcheck none {}

end MiniJava

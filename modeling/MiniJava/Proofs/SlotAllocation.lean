import MiniJava.Proofs.Assembly.Expressible
import MiniJava.Proofs.Assembly.Lines
import MiniJava.Proofs.Lowering.Contexts
import MiniJava.Proofs.StackSafety

namespace MiniJava

open Tac Lower

def Finding.IsMissingSlot : Finding → Prop
  | .missingSlot .. => True
  | .located .. | .underflow _ => False

namespace Jasmin

def Line.slot? : Line Opcode → Option Nat
  | .op (.load _ i) _ | .op (.store _ i) _ => some i
  | _ => none

def Line.Within (k : Nat) (l : Line Opcode) : Prop := ∀ i ∈ l.slot?, i < k

/-- The slots of a method are used one by one, all of its variables have one, and the body that it
is assembled to declares as many as it uses. -/
structure SlotSafe (c : Tac.Class) (m : Tac.Method) (b : Body) : Prop where
  distinct {x y : String} {i : Nat} {t u : ValType} :
    m.slots.get? x = some (i, t) → m.slots.get? y = some (i, u) → x = y
  used (i : Nat) : (∃ x t, m.slots.get? x = some (i, t)) ↔ i < m.slots.size
  covered : ∀ i ∈ m.code, ∀ y ∈ i.mentions, ∀ x ∈ y.name?, ∃ k t, m.slots.get? x = some (k, t)
  found : ∀ f ∈ b.findings, ¬ f.IsMissingSlot
  limit (pad : String) :
    (methodLines c pad m b)[2]? = some s!"{pad}.limit locals {max 1 m.slots.size}"
  within : ∀ l ∈ b.lines, l.Within (max 1 m.slots.size)

variable {c : Tac.Class} {m : Tac.Method} {n : Nat}

theorem keeps_slots : Keeps m (·.Within m.slots.limit) (¬ ·.IsMissingSlot) where
  inner l hl := by
    cases l with
    | op o δ => cases o <;> first | exact hl.elim | exact nofun
    | label | comment => exact nofun
  receiver := by
    rintro k ⟨⟩
    exact Nat.lt_of_lt_of_le Nat.zero_lt_one (Nat.le_max_left ..)
  unsupported _ := id

theorem placed_of_mem {y : Operand} (h : ∀ x ∈ y.name?, x ∈ m.slots.names) :
    Placed m (·.Within m.slots.limit) (¬ ·.IsMissingSlot) y := by
  have hslot (x : String) (hx : x ∈ m.slots.names) :
      Yields (fun ki : Kind × Nat ↦ (Line.op (.load ki.1 ki.2) 1).Within m.slots.limit ∧
        (Line.op (.store ki.1 ki.2) (-1)).Within m.slots.limit) (¬ ·.IsMissingSlot) (slot m x) := by
    obtain ⟨i, t, hi⟩ := Slots.get?_of_mem hx
    have hlt : ∀ k ∈ some i, k < m.slots.limit := by
      rintro k ⟨⟩
      exact Slots.lt_limit hi
    rw [slot, hi]
    exact ⟨hlt, hlt⟩
  cases y with
  | var x t | param j x t => exact hslot x (h x rfl)
  | lit | elem | this | cls => trivial

theorem within_returnLine (t : ValType) (k : Nat) : (returnLine t).Within k := by
  unfold returnLine
  split <;> exact nofun

section

variable {receiver : Option String} (hm : m.slots = .ofCode receiver m.params m.code)
  (hp : ∀ i ∈ m.code, ∀ j x t, .param j x t ∈ i.mentions → x ∈ m.params.map (·.name))

include hm hp

theorem mem_names_of_mention {i : Instr} (hi : i ∈ m.code) {y : Operand} (hy : y ∈ i.mentions) :
    ∀ x ∈ y.name?, x ∈ m.slots.names := by
  intro x hx
  cases y with
  | var x' t =>
    obtain rfl := Option.some.inj hx
    exact var_mem_names hm hi hy
  | param j x' t =>
    obtain rfl := Option.some.inj hx
    exact param_mem_names hm (hp i hi j x' t hy)
  | lit | elem | this | cls => exact absurd hx nofun

theorem placed_code : ∀ i ∈ m.code,
    (∀ y ∈ i.mentions, Placed m (·.Within m.slots.limit) (¬ ·.IsMissingSlot) y) ∧
      ∀ t v, i = .return t v → (returnLine t).Within m.slots.limit :=
  fun _ hi ↦ ⟨fun _ hy ↦ placed_of_mem (mem_names_of_mention hm hp hi hy),
    fun t _ _ ↦ within_returnLine t _⟩

/-- It is enough that the parameters that the code uses are those of the method. -/
theorem slotSafe_body : SlotSafe c m (body c n m) where
  distinct := Slots.eq_of_get?_eq
  used _ := Slots.exists_get?_iff (hm ▸ Slots.nodup_names_ofCode ..)
  covered _ hi _ hy x hx := Slots.get?_of_mem (mem_names_of_mention hm hp hi hy x hx)
  found f hf := by
    rcases keeps_slots.findings (placed_code hm hp) f hf with h | rfl
    · exact h
    · exact id
  limit _ := rfl
  within := keeps_slots.lines (placed_code hm hp) (within_returnLine .void _)

end

end Jasmin

/-- A variable that is not loose has its type in the context. -/
theorem Tac.Operand.Typed.ty_eq {s : Scope} {loose : String → Prop} {n : Nat}
    {Γ : Store ValType} {y : Operand} (h : y.Typed s loose n Γ) (hd : s.Declares Γ)
    (hloose : ∀ x, ¬ loose x) : ∀ x ∈ y.name?, Γ x = y.ty := by
  intro x hx
  cases y with
  | var x' t =>
    obtain rfl := Option.some.inj hx
    exact (h.resolve_left (hloose x')).2
  | param j x' t =>
    obtain rfl := Option.some.inj hx
    exact (hd _ _ h).2
  | lit | elem | this | cls => exact absurd hx nofun

namespace Scope

variable {s : Scope} {n : Nat}

/-- Names of temporaries end in digits. -/
theorem not_laterTemp_this : ¬ s.LaterTemp n "this" := by
  rintro ⟨-, stem, hs, k, -, he⟩
  have hrest := dropWhile_reverse_numbered (plain_of_mem_tempStems hs) k
  rw [← he] at hrest
  have hno : ∀ stem ∈ tempStems,
      "this".toList.reverse.dropWhile Char.isDigit ≠ stem.toList.reverse := by decide
  exact hno stem hs hrest

theorem methodBinding?_of_storage {name : String} {x : Operand}
    (h : s.storage? name = some x) : ∃ b, s.methodBinding? name = some b := by
  obtain ⟨i, q, hb, -⟩ | ⟨v, hb, -⟩ := storage_cases h
  · exact ⟨_, methodBinding?_of_binding hb (.inl ⟨i, q, rfl⟩)⟩
  · exact ⟨_, methodBinding?_of_binding hb (.inr ⟨v, rfl⟩)⟩

def context (s : Scope) : Store ValType := fun x ↦
  (s.storage? x).elim (.cls s.symbols.className) Operand.ty

theorem declares_context (hs : s.Own) : s.Declares s.context := by
  intro name x hx
  obtain ⟨b, hb⟩ := methodBinding?_of_storage hx
  refine ⟨not_laterTemp_of_declared (declared_of_methodBinding? hs hb), ?_⟩
  simp only [context, hx, Option.elim_some]

/-- The variables that a body mentions have their types in one context, which extends that of the
declarations. -/
theorem exists_context (hs : s.Own) {loose : String → Prop} {body : List Stmt}
    (h : ∀ e ∈ Stmt.exprsAll body, e.Everywhere (s.Resolves loose)) (n : Numbering) :
    ∃ Γ, s.Declares Γ ∧ s.Frame n.temp s.context Γ ∧
      ∀ i ∈ (s.lowerStmts body n).code, ∀ y ∈ i.mentions, ∃ k, y.Typed s loose k Γ := by
  obtain ⟨Γ, -, hf, hcode, -⟩ := knowing_types.lowerStmts h [] n s.context (declares_context hs)
    (List.forall_mem_nil _)
  refine ⟨Γ, (declares_context hs).frame hf, hf, fun i hi y hy ↦ ?_⟩
  obtain ⟨x, hx, hpart⟩ := List.mem_flatMap.1 hy
  exact ⟨_, (hcode i hi x hx).parts y hpart⟩

end Scope

namespace Program

variable {p : Program} {m : MethodDecl} {loose : String → Prop}

theorem mem_names_of_storage {name : String} {x : Operand}
    (h : (p.scope m).storage? name = some x) :
    name ∈ m.params.map (·.name.name) ++ m.locals.map (·.name.name) := by
  obtain ⟨b, hb⟩ := Scope.methodBinding?_of_storage h
  have hmem := Scope.mem_of_methodBinding? rfl hb
  simpa [MethodDecl.signature, ParamDecl.parameter, VarDecl.symbol, Function.comp_def] using hmem

theorem context_this (hthis : "this" ∉ m.params.map (·.name.name) ++ m.locals.map (·.name.name)) :
    (p.scope m).context "this" = .cls p.symbols.className := by
  have hnone : (p.scope m).storage? "this" = none :=
    Option.eq_none_iff_forall_ne_some.2 fun x hx ↦ hthis (mem_names_of_storage hx)
  simp only [Scope.context, hnone, Option.elim_none]
  rfl

theorem storage?_param (hparams : (m.params.map (·.name.name)).Nodup) {q : ParamDecl}
    (hq : q ∈ m.params) :
    ∃ j, (p.scope m).storage? q.name.name = some (.param j q.name.name (.ofTy q.ty.ty)) := by
  obtain ⟨j, hj⟩ := List.getElem?_of_mem hq
  have hget : m.signature.params[j]? = some q.parameter := by simp [MethodDecl.signature, hj]
  have hnodup : (m.signature.params.map (·.symbol.name)).Nodup := by
    simpa [MethodDecl.signature, ParamDecl.parameter, Function.comp_def] using hparams
  have hindex : m.signature.paramIndex? q.name.name = some j := findIdx?_of_nodup hnodup hget
  have hparam : m.signature.param? q.name.name = some (j, q.parameter) := by
    simp [Signature.param?, hindex, hget]
  have hbinding : (p.scope m).binding q.name.name = .param j q.parameter := by
    simp [Scope.binding, Scope.methodBinding?, scope, hparam]
  exact ⟨j, by simp [Scope.storage?, hbinding, ParamDecl.parameter]⟩

theorem lower_eq_scope (hn : (p.cls.methods.map (·.name.name)).Nodup) (hm : m ∈ p.cls.methods) :
    m.lower p.symbols = (p.scope m).lowerStmts m.body := by
  rw [MethodDecl.lower, method?_eq hn hm, scope]

theorem this_of_mention (hm : m ∈ p.cls.methods) {n : Numbering} {i : Instr}
    (hi : i ∈ ((p.scope m).lowerStmts m.body n).code) {cls : String}
    (hx : .this cls ∈ i.mentions) : cls = p.cls.name.name := by
  obtain ⟨Γ, -, -, hcode⟩ :=
    Scope.exists_context (scope_own hm) (fun e _ ↦ Scope.everywhere_resolves_loose e) n
  obtain ⟨_, howner⟩ := hcode i hi _ hx
  exact howner

/-- The parameters that a body mentions are those of its method. -/
theorem mem_params_of_mention (hm : m ∈ p.cls.methods) {n : Numbering} {i : Instr}
    (hi : i ∈ ((p.scope m).lowerStmts m.body n).code) {j : Nat} {x : String} {t : ValType}
    (hx : .param j x t ∈ i.mentions) : x ∈ (m.params.map ParamDecl.var).map (·.name) := by
  obtain ⟨Γ, -, -, hcode⟩ :=
    Scope.exists_context (scope_own hm) (fun e _ ↦ Scope.everywhere_resolves_loose e) n
  obtain ⟨k, hstorage⟩ := hcode i hi _ hx
  obtain ⟨i', q, hb, -⟩ | ⟨v, -, hv⟩ := Scope.storage_cases hstorage
  · obtain ⟨hmem, rfl⟩ := Signature.mem_of_param? (Scope.param?_of_binding rfl hb)
    obtain ⟨d, hd, rfl⟩ := List.mem_map.1 hmem
    exact List.mem_map.2 ⟨d.var, List.mem_map_of_mem hd, rfl⟩
  · exact absurd hv nofun

section

variable (hparams : (m.params.map (·.name.name)).Nodup)

include hparams

/-- Where a context agrees with the declarations and with all that the code mentions, it agrees
with the slots of the method. -/
theorem ty_of_mem_vars {Γ : Store ValType} (hd : (p.scope m).Declares Γ)
    (hreceiver : Γ "this" = .cls p.symbols.className) {code : List Instr}
    (hmention : ∀ i ∈ closeBody (.ofTy m.ret.ty) code, ∀ y ∈ i.mentions, ∀ x ∈ y.name?,
      Γ x = y.ty) :
    ∀ v ∈ (m.withBody p.symbols.className code).slots.vars, Γ v.name = v.ty := by
  intro v hv
  rcases Slots.mem_vars_ofCode hv with hv | hv | hv
  · obtain ⟨cls, hcls, rfl⟩ := List.mem_map.1 hv
    rw [Option.mem_toList, Option.ite_none_left_eq_some] at hcls
    obtain rfl := Option.some.inj hcls.2
    exact hreceiver
  · obtain ⟨q, hq, rfl⟩ := List.mem_map.1 hv
    obtain ⟨j, hj⟩ := storage?_param hparams hq
    exact (hd _ _ hj).2
  · obtain ⟨y, hy, hvar⟩ := List.mem_filterMap.1 hv
    obtain ⟨i, hi, hy⟩ := List.mem_flatMap.1 hy
    cases y with
    | var x t =>
      obtain rfl := Option.some.inj hvar
      exact hmention i hi _ hy x rfl
    | lit | param | elem | this | cls => exact absurd hvar nofun

/-- In a method without undeclared variables a slot has the type of the operands that use it. -/
theorem ty_slot (hm : m ∈ p.cls.methods)
    (hthis : "this" ∉ m.params.map (·.name.name) ++ m.locals.map (·.name.name))
    (h : ∀ e ∈ Stmt.exprsAll m.body, e.Everywhere ((p.scope m).Resolves fun _ ↦ False))
    (n : Numbering) :
    let tm := m.withBody p.symbols.className ((p.scope m).lowerStmts m.body n).code
    ∀ i ∈ tm.code, ∀ y ∈ i.mentions, ∀ x ∈ y.name?, ∀ k t,
      tm.slots.get? x = some (k, t) → t = y.ty := by
  intro tm
  obtain ⟨Γ, hd, hf, hcode⟩ := Scope.exists_context (scope_own hm) h n
  have hreceiver : Γ "this" = .cls p.symbols.className :=
    (hf "this" Scope.not_laterTemp_this).trans (context_this hthis)
  have hmention : ∀ i ∈ tm.code, ∀ y ∈ i.mentions, ∀ x ∈ y.name?, Γ x = y.ty := by
    refine forall_closeBody (fun _ ↦ nofun) fun i hi y hy ↦ ?_
    obtain ⟨k, hty⟩ := hcode i hi y hy
    exact hty.ty_eq hd fun _ ↦ id
  intro i hi y hy x hx k t hget
  have hmem := List.mem_of_getElem? (Slots.getElem?_of_get? hget)
  have hslot : Γ x = t := ty_of_mem_vars hparams hd hreceiver hmention ⟨x, t⟩ hmem
  exact hslot.symm.trans (hmention i hi y hy x hx)

end

/-- The slots of a lowered method follow the calling convention. Unless a variable is undeclared,
each slot has the type of the operands that use it. The receiver always has that of its class. -/
structure SlotsFit (p : Program) (m : MethodDecl) (tm : Tac.Method) : Prop where
  receiver : m.isStatic = false → tm.slots.get? "this" = some (0, .cls p.cls.name.name)
  params (j : Nat) (q : ParamDecl) : m.params[j]? = some q →
    tm.slots.get? q.name.name = some (if m.isStatic then j else j + 1, .ofTy q.ty.ty)
  types : (∀ name pos, .located (.undeclaredVariable name) pos ∉ p.check) →
    ∀ i ∈ tm.code, ∀ y ∈ i.mentions, ∀ x ∈ y.name?, ∃ k, tm.slots.get? x = some (k, y.ty)
  this (cls : String) : ∀ i ∈ tm.code, .this cls ∈ i.mentions → cls = p.cls.name.name

section

variable (hn : (p.cls.methods.map (·.name.name)).Nodup)

include hn

theorem slotSafe_withBody (hm : m ∈ p.cls.methods) (n : Numbering) (k : Nat) :
    let tm := m.withBody p.symbols.className (m.lower p.symbols n).code
    Jasmin.SlotSafe p.lower.1 tm (Jasmin.body p.lower.1 k tm) := by
  refine Jasmin.slotSafe_body rfl (forall_closeBody (fun _ _ _ _ ↦ nofun) fun i hi j x t hx ↦ ?_)
  rw [lower_eq_scope hn hm] at hi
  exact mem_params_of_mention hm hi hx

theorem slotSafe_lower {tm : Tac.Method} (htm : tm ∈ p.lower.1.methods) (k : Nat) :
    Jasmin.SlotSafe p.lower.1 tm (Jasmin.body p.lower.1 k tm) := by
  rcases List.mem_cons.1 htm with rfl | htm
  -- The constructor mentions nothing but its receiver.
  · have hslots : (Tac.Method.constructor p.cls.name.name).slots = .ofCode (some p.cls.name.name) []
        (Tac.Method.constructor p.cls.name.name).code := rfl
    refine Jasmin.slotSafe_body hslots (List.forall_mem_singleton.2 fun j x t hx ↦ ?_)
    exact absurd (List.mem_singleton.1 hx) nofun
  · obtain ⟨m, hm, n, rfl⟩ := mem_lowerMethods htm
    exact slotSafe_withBody hn hm n k

theorem slotsFit_withBody (hm : m ∈ p.cls.methods)
    (hparams : (m.params.map (·.name.name)).Nodup)
    (hthis : "this" ∉ m.params.map (·.name.name) ++ m.locals.map (·.name.name)) (n : Numbering) :
    p.SlotsFit m (m.withBody p.symbols.className (m.lower p.symbols n).code) where
  receiver hs := by
    simp only [MethodDecl.withBody, hs]
    exact Slots.get?_this ..
  params j q hq := by
    let receiver := if m.isStatic then none else some p.symbols.className
    have hvar : (m.params.map ParamDecl.var)[j]? = some q.var := by simp [hq]
    have hnames : ((Slots.start receiver).names ++
        (m.params.map ParamDecl.var).map (·.name)).Nodup := by
      rw [List.map_map]
      exact Slots.nodup_names_start_append hparams fun h ↦ hthis (List.mem_append_left _ h)
    have hget : (m.withBody p.symbols.className (m.lower p.symbols n).code).slots.get?
        q.name.name = some (receiver.toList.length + j, .ofTy q.ty.ty) :=
      Slots.get?_param hnames hvar
    have hplace : receiver.toList.length + j = if m.isStatic then j else j + 1 := by
      dsimp only [receiver]
      split
      · exact Nat.zero_add j
      · exact Nat.add_comm 1 j
    rw [hget, hplace]
  types h i hi y hy x hx := by
    have hresolves : ∀ e ∈ Stmt.exprsAll m.body,
        e.Everywhere ((p.scope m).Resolves fun _ ↦ False) :=
      fun e he ↦ Scope.everywhere_resolves fun name pos hf ↦ h name pos
        (checkStmts_subset_check hn hm (Scope.check_subset_checkStmts rfl m.body e he hf))
    obtain ⟨k, t, hget⟩ := (slotSafe_withBody hn hm n 0).covered i hi y hy x hx
    rw [lower_eq_scope hn hm] at hi hget ⊢
    obtain rfl := ty_slot hparams hm hthis hresolves n i hi y hy x hx k t hget
    exact ⟨k, hget⟩
  this cls := by
    refine forall_closeBody (fun _ hx ↦ absurd hx List.not_mem_nil) fun i hi hx ↦ ?_
    rw [lower_eq_scope hn hm] at hi
    exact this_of_mention hm hi hx

end

/-- Whatever is lowered, each variable has a slot of its own, and all slots in use are declared.
Those of the receiver and of the parameters come first, in their order. -/
theorem slots_allocated (hn : (p.cls.methods.map (·.name.name)).Nodup) :
    (∀ mb ∈ p.lower.1.methods.zip (Jasmin.bodies p.lower.1 0 p.lower.1.methods),
      Jasmin.SlotSafe p.lower.1 mb.1 mb.2) ∧
    ∀ k m, p.cls.methods[k]? = some m → (m.params.map (·.name.name)).Nodup →
      "this" ∉ m.params.map (·.name.name) ++ m.locals.map (·.name.name) →
        ∃ tm, p.lower.1.methods[k + 1]? = some tm ∧ p.SlotsFit m tm := by
  constructor
  · rintro ⟨tm, b⟩ hmb
    obtain ⟨htm, -, k, rfl⟩ := Jasmin.mem_zip_bodies hmb
    exact slotSafe_lower hn htm k
  · intro k m hm hparams hthis
    obtain ⟨n, htm⟩ := lowerMethods_getElem? p.symbols p.cls.methods {} hm
    exact ⟨_, htm, slotsFit_withBody hn (List.mem_of_getElem? hm) hparams hthis n⟩

/-- `static int f(int n, boolean[] bs) {`
`int i; i = n; while (0 < i && bs[i]) i = i - 1; return i; }`
and `int g(int a) { return a + a; }`. -/
theorem slots_allocated_loop :
    let pos := Position.point 1 1
    let int : TypeExpr := ⟨.int, false, false, pos⟩
    let n : Ident := ⟨"n", pos⟩
    let bs : Ident := ⟨"bs", pos⟩
    let i : Ident := ⟨"i", pos⟩
    let a : Ident := ⟨"a", pos⟩
    let less := Expr.binary .less (.int 0 pos) (.ident i) pos
    let test := Expr.binary .and less (.index (.ident bs) (.ident i) pos) pos
    let step := Stmt.assign i none (.binary (.arith .sub) (.ident i) (.int 1 pos) pos) pos
    let f : MethodDecl :=
      { isPublic := true, isStatic := true, ret := int, name := ⟨"f", pos⟩, pos
        params := [⟨int, n, pos⟩, ⟨⟨.boolean, true, false, pos⟩, bs, pos⟩]
        body := [.var ⟨int, i, pos⟩, .assign i none (.ident n) pos, .while test step pos,
          .return (some (.ident i)) pos] }
    let sum := Expr.binary (.arith .add) (.ident a) (.ident a) pos
    let g : MethodDecl :=
      { isPublic := true, isStatic := false, ret := int, name := ⟨"g", pos⟩
        params := [⟨int, a, pos⟩], body := [.return (some sum) pos], pos }
    let p : Program := ⟨[], ⟨⟨"A", pos⟩, none, [], [f, g], pos⟩⟩
    (p.cls.methods.map (·.name.name)).Nodup ∧ p.check = [] ∧
      p.lower.1.methods.map (fun tm ↦ tm.slots.names) = [["this"],
        ["n", "bs", "i", "tmp0", "tmp1", "tmp2", "tmp3", "tmp4", "tmp5", "tmp6"],
        ["this", "a", "tmp7"]] ∧
      (∀ mb ∈ p.lower.1.methods.zip (Jasmin.bodies p.lower.1 0 p.lower.1.methods),
        Jasmin.SlotSafe p.lower.1 mb.1 mb.2) ∧
      (∃ tm, p.lower.1.methods[1]? = some tm ∧ p.SlotsFit f tm) ∧
      ∃ tm, p.lower.1.methods[2]? = some tm ∧ p.SlotsFit g tm := by
  intro pos int n bs i a less test step f sum g p
  have hn : (p.cls.methods.map (·.name.name)).Nodup := by decide +kernel +zetaReduce
  obtain ⟨hsafe, hfit⟩ := slots_allocated hn
  refine ⟨hn, by decide +kernel +zetaReduce, by decide +kernel +zetaReduce, hsafe, ?_, ?_⟩
  · exact hfit 0 f rfl (by decide +kernel +zetaReduce) (by decide +kernel +zetaReduce)
  · exact hfit 1 g rfl (by decide +kernel +zetaReduce) (by decide +kernel +zetaReduce)

end Program

end MiniJava

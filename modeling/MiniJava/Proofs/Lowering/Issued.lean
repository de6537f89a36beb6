import MiniJava.Proofs.Lowering.Closure

namespace MiniJava

open Tac Lower

theorem forall_mem_two {α : Type} {P : α → Prop} {a b : α} : (∀ x ∈ [a, b], P x) ↔ P a ∧ P b := by
  simp

def Parameter.element (p : Parameter) : ValType := (ValType.ofTy p.symbol.ty).element?.getD .int

def Stmt.inner : Stmt → List Stmt
  | .block body _ => body
  | .ifThen _ body _ | .while _ body _ => [body]
  | .ifElse _ body other _ => [body, other]
  | .var _ | .expr .. | .assign .. | .return .. => []

def Stmt.cond? : Stmt → Option Expr
  | .ifThen cond _ _ | .ifElse cond _ _ _ | .while cond _ _ => some cond
  | .var _ | .block .. | .expr .. | .assign .. | .return .. => none

namespace Scope

variable (s : Scope)

section

variable (target : Option Signature) (args : List Expr)

def inOrder : List ValType → List Expr → List (Expr × Option ValType)
  | _, [] => []
  | hints, e :: es => (e, hints.head?) :: inOrder hints.tail es

def paramHints : List ValType := (target.elim [] (·.params)).map fun p ↦ .ofTy p.symbol.ty

def fixedArgs : List Expr := args.take ((target.elim [] (·.params)).length - 1)

def packedArgs : List Expr := args.drop ((target.elim [] (·.params)).length - 1)

def packing? : Option Parameter := target.bind (s.packed? · args)

def argParts : List (Expr × Option ValType) :=
  match s.packing? target args with
  | none => inOrder (paramHints target) args
  | some p => inOrder (paramHints target) (fixedArgs target args) ++
      (packedArgs target args).map (·, some p.element)

end

/-- The expressions whose values an expression with a hint is made of, with their own hints. The
class of a static call has no value. -/
def parts : Expr → Option ValType → List (Expr × Option ValType)
  | .int .., _ | .bool .., _ | .ident _, _ | .this _, _ | .newObject .., _ => []
  | .binary .and left right _, _ => [(left, some .bool), (right, some .bool)]
  | .binary (.arith _) left right _, _ | .binary .less left right _, _ =>
    [(left, some .int), (right, some .int)]
  | .not e _, _ => [(e, some .bool)]
  | .paren e _, hint => [(e, hint)]
  | .index base idx _, _ => [(base, none), (idx, some .int)]
  | .length base _, _ => [(base, none)]
  | .call recv method args _, _ =>
    (if (s.className? recv).isSome then [] else [(recv, none)]) ++
      s.argParts (s.target? recv method.name) args
  | .newArray size _, _ => [(size, some .int)]
  | .array elems _, _ => elems.map (·, some (s.literalElement elems))

inductive Throughout (E : Expr → Option ValType → Prop) : Expr → Option ValType → Prop
  | intro (e : Expr) (hint : Option ValType) :
      E e hint → (∀ p ∈ s.parts e hint, Throughout E p.1 p.2) → Throughout E e hint

def storage? (name : String) : Option Operand :=
  match s.binding name with
  | .param i p => some (.param i name (.ofTy p.symbol.ty))
  | .local v => some (.var name (.ofTy v.ty))
  | .field _ | .inherited | .cls | .undeclared => none

/-- The type of the field that an assignment to a name stores in. An inherited one is taken to fit
the value. -/
def fieldTy? (name : String) (indexed : Bool) (value : Expr) : Option ValType :=
  match s.binding name with
  | .field f => some (.ofTy f.ty)
  | .inherited => some (if indexed then .array (s.valType value none) else s.valType value none)
  | .param .. | .local _ | .cls | .undeclared => none

def targetTy? (name : String) (indexed : Bool) (value : Expr) : Option ValType :=
  match s.storage? name with
  | some x => some x.ty
  | none => s.fieldTy? name indexed value

def returnTy : ValType := s.method.elim .void fun m ↦ .ofTy m.ret

/-- The expressions whose values a statement itself uses, with their hints. The value of a call that
is a statement is not used, and neither is that of a name. -/
def stmtParts : Stmt → List (Expr × Option ValType)
  | .var _ | .block .. | .return none _ => []
  | .ifThen cond _ _ | .ifElse cond _ _ _ | .while cond _ _ => [(cond, some .bool)]
  | .expr e _ =>
    match e.unparen with
    | .call recv method args pos => s.parts (.call recv method args pos) (some .void)
    | .ident _ => []
    | _ => [(e, none)]
  | .assign target index value _ =>
    match s.targetTy? target.name index.isSome value, index with
    | none, _ => []
    | some ty, none => [(value, some ty)]
    | some ty, some i => [(i, some .int), (value, some (ty.element?.getD .int))]
  | .return (some e) _ => [(e, some s.returnTy)]

inductive StmtThroughout (E : Expr → Option ValType → Prop) (S : Stmt → Prop) : Stmt → Prop
  | intro (stmt : Stmt) : S stmt → (∀ p ∈ s.stmtParts stmt, s.Throughout E p.1 p.2) →
      (∀ x ∈ stmt.inner, StmtThroughout E S x) → StmtThroughout E S stmt

theorem storage_cases {s : Scope} {name : String} {x : Operand} (h : s.storage? name = some x) :
    (∃ i p, s.binding name = .param i p ∧ x = .param i name (.ofTy p.symbol.ty)) ∨
      ∃ v, s.binding name = .local v ∧ x = .var name (.ofTy v.ty) := by
  unfold storage? at h
  cases hb : s.binding name with
  | param i p =>
    rw [hb] at h
    exact .inl ⟨i, p, rfl, (Option.some.inj h).symm⟩
  | «local» v =>
    rw [hb] at h
    exact .inr ⟨v, rfl, (Option.some.inj h).symm⟩
  | field | cls | inherited | undeclared => simp [hb] at h

def Evaluates (E : Expr → Option ValType → Prop) (S : Stmt → Prop) (e : Expr) : Prop :=
  (∃ hint, E e hint) ∨ ∃ e' pos, S (.expr e' pos) ∧ e'.unparen = e

def Gives (e : Expr) (hint : Option ValType) (v : Operand) : Prop :=
  ∃ n, (s.lower e hint n).value = v

def GivesCall (recv : Expr) (method : Ident) (args : List Expr) (hint : Option ValType)
    (k : Call) : Prop := ∃ n, (s.lowerCall recv method args hint n).value = k

def StoreArray (target : Ident) (value : Expr) (a : Operand) : Prop :=
  s.storage? target.name = some a ∨
    ∃ ty x, s.fieldTy? target.name true value = some ty ∧ a = .var x ty

/-- The types that fields are read at. An inherited one is taken to have the type that is wanted. -/
inductive ReadTy (E : Expr → Option ValType → Prop) (S : Stmt → Prop) : String → ValType → Prop
  | declared {name : String} {f : Symbol} : s.binding name = .field f →
      ReadTy E S name (.ofTy f.ty)
  | inherited {id : Ident} {hint : Option ValType} : E (.ident id) hint ∨ hint = none →
      ReadTy E S id.name (hint.getD .int)
  | stored {target : Ident} {idx value : Expr} {pos : Position} {ty : ValType} :
      S (.assign target (some idx) value pos) → s.fieldTy? target.name true value = some ty →
      ReadTy E S target.name ty

inductive BuiltTy (E : Expr → Option ValType → Prop) : ValType → Prop
  | literal {elems : List Expr} {pos : Position} {hint : Option ValType} :
      E (.array elems pos) hint → BuiltTy E (.array (s.literalElement elems))
  | gathered {recv : Expr} {method : String} {args : List Expr} {p : Parameter} :
      s.packing? (s.target? recv method) args = some p → BuiltTy E (.ofTy p.symbol.ty)

/-- The instructions that the parts of a method are lowered to. Expressions whose values are used
satisfy `E`, statements `S`. -/
inductive Issued (E : Expr → Option ValType → Prop) (S : Stmt → Prop) : Instr → Prop
  | read {name : String} {ty : ValType} (x : String) : s.ReadTy E S name ty →
      Issued E S (.assign (.var x ty) ty (.field name ty))
  | arith {op : Arith} {left right : Expr} {pos : Position} {hint : Option ValType} {a b : Operand}
      (x : String) : E (.binary (.arith op) left right pos) hint → s.Gives left (some .int) a →
      s.Gives right (some .int) b → Issued E S (.assign (.var x .int) .int (.arith op a b))
  | less {left right : Expr} {pos : Position} {hint : Option ValType} {a b : Operand}
      (x : String) : E (.binary .less left right pos) hint → s.Gives left (some .int) a →
      s.Gives right (some .int) b → Issued E S (.assign (.var x .bool) .bool (.less a b))
  | and {left right : Expr} {pos : Position} {hint : Option ValType} {a : Operand}
      (l : String) : E (.binary .and left right pos) hint → s.Gives left (some .bool) a →
      Issued E S (.branch (.value a) l)
  | skip (x : String) : Issued E S (.assign (.var x .bool) .bool (.value (.bool false)))
  | last {left right : Expr} {pos : Position} {hint : Option ValType} {b : Operand}
      (x : String) : E (.binary .and left right pos) hint → s.Gives right (some .bool) b →
      Issued E S (.assign (.var x .bool) .bool (.value b))
  | not {e : Expr} {pos : Position} {hint : Option ValType} {a : Operand}
      (x : String) : E (.not e pos) hint → s.Gives e (some .bool) a →
      Issued E S (.assign (.var x .bool) .bool (.not a))
  | index {base idx : Expr} {pos : Position} {hint : Option ValType} {a i : Operand} {ty : ValType}
      (x : String) : E (.index base idx pos) hint → s.Gives base none a →
      s.Gives idx (some .int) i → ty = a.ty.element?.getD (hint.getD .int) →
      Issued E S (.assign (.var x ty) ty (.value (.elem a i ty)))
  | length {base : Expr} {pos : Position} {hint : Option ValType} {a : Operand}
      (x : String) : E (.length base pos) hint → s.Gives base none a →
      Issued E S (.assign (.var x .int) .int (.call ⟨.length a, .int⟩))
  | object (x cls : String) :
      Issued E S (.assign (.var x (.cls cls)) (.cls cls) (.call ⟨.new cls, .cls cls⟩))
  | construct (x cls : String) : Issued E S (.call ⟨.special (.var x (.cls cls)), .void⟩)
  | newArray {size : Expr} {pos : Position} {hint : Option ValType} {n : Operand}
      (x : String) : E (.newArray size pos) hint → s.Gives size (some .int) n →
      Issued E S (.assign (.var x (.array .int)) (.array .int)
        (.call ⟨.newArray n, .array .int⟩))
  | allocate (x : String) (ty : ValType) (len : Nat) : s.BuiltTy E ty →
      Issued E S (.assign (.var x ty) ty (.call ⟨.newArray (.int (Int32.ofNat len)), ty⟩))
  | element {elems : List Expr} {pos : Position} {hint : Option ValType} {e : Expr} {v : Operand}
      {ty : ValType} (x : String) (i : Nat) : E (.array elems pos) hint → e ∈ elems →
      ty = s.literalElement elems → s.Gives e (some ty) v →
      Issued E S (.assign (.elem (.var x (.array ty)) (.int (Int32.ofNat i)) ty) ty (.value v))
  | call {recv : Expr} {method : Ident} {args : List Expr} {pos : Position}
      {hint : Option ValType} {k : Call} (x : String) : E (.call recv method args pos) hint →
      s.GivesCall recv method args hint k → Issued E S (.assign (.var x k.ret) k.ret (.call k))
  | packed (x y : String) (ty : ValType) : s.BuiltTy E ty →
      Issued E S (.assign (.var x ty) ty (.value (.var y ty)))
  | argument {recv : Expr} {method : Ident} {args : List Expr} {pos : Position}
      {p : Parameter} {e : Expr} {v : Operand} (x : String) (i : Nat) :
      Evaluates E S (.call recv method args pos) →
      s.packing? (s.target? recv method.name) args = some p →
      e ∈ packedArgs (s.target? recv method.name) args → s.Gives e (some p.element) v →
      Issued E S (.assign (.elem (.var x (.ofTy p.symbol.ty)) (.int (Int32.ofNat i)) p.element)
        p.element (.value v))
  | undeclared {id : Ident} (what : String) : Evaluates E S (.ident id) →
      s.binding id.name = .undeclared → Issued E S (.invalid what)
  | unknownClass {cls : Ident} {pos : Position} {hint : Option ValType} (what : String) :
      E (.newObject cls pos) hint → s.symbols.isClassName cls.name = false →
      Issued E S (.invalid what)
  | unassignable {target : Ident} {index : Option Expr} {value : Expr} {pos : Position}
      (what : String) : S (.assign target index value pos) → s.storage? target.name = none →
      s.fieldTy? target.name index.isSome value = none → Issued E S (.invalid what)
  | goto (l : String) : Issued E S (.goto l)
  | label (l : String) : Issued E S (.label l)
  | test {stmt : Stmt} {cond : Expr} {a : Operand} (l : String) : S stmt → stmt.cond? = some cond →
      s.Gives cond (some .bool) a → Issued E S (.branch (.value a) l)
  | compare {left right : Expr} {pos : Position} {hint : Option ValType} {a b : Operand}
      (l : String) : E (.binary .less left right pos) hint → s.Gives left (some .int) a →
      s.Gives right (some .int) b → Issued E S (.branch (.less a b) l)
  | effect {e recv : Expr} {method : Ident} {args : List Expr} {pos pos' : Position} {k : Call} :
      S (.expr e pos) → e.unparen = .call recv method args pos' →
      s.GivesCall recv method args (some .void) k → Issued E S (.call k)
  | store {target : Ident} {value : Expr} {pos : Position} {dest v : Operand} :
      S (.assign target none value pos) → s.storage? target.name = some dest →
      s.Gives value (some dest.ty) v → Issued E S (.assign dest dest.ty (.value v))
  | put {target : Ident} {value : Expr} {pos : Position} {ty : ValType} {v : Operand} :
      S (.assign target none value pos) → s.fieldTy? target.name false value = some ty →
      s.Gives value (some ty) v → Issued E S (.putField target.name ty v)
  | storeAt {target : Ident} {idx value : Expr} {pos : Position} {a i v : Operand} {ty : ValType} :
      S (.assign target (some idx) value pos) → s.StoreArray target value a →
      ty = a.ty.element?.getD .int → s.Gives idx (some .int) i → s.Gives value (some ty) v →
      Issued E S (.assign (.elem a i ty) ty (.value v))
  | returnNone {pos : Position} : S (.return none pos) → Issued E S (.return s.returnTy none)
  | returnSome {e : Expr} {pos : Position} {v : Operand} : S (.return (some e) pos) →
      s.Gives e (some s.returnTy) v → Issued E S (.return s.returnTy (some v))

end Scope

def Lower.All (A : Instr → Prop) {α : Type} (x : Lower α) : Prop := ∀ n, ∀ i ∈ (x n).code, A i

namespace Lower.All

variable {α β : Type} {A : Instr → Prop}

theorem pure (a : α) : All A (pure a) := fun _ ↦ nofun

theorem bind {x : Lower α} {f : α → Lower β} (hx : All A x)
    (hf : ∀ n, All A (f (x n).value)) : All A (x >>= f) := by
  intro n
  rw [bind_apply]
  exact List.forall_mem_append.2 ⟨hx n, hf n _⟩

theorem emit {i : Instr} (h : A i) : All A (Lower.emit i) := fun _ ↦ List.forall_mem_singleton.2 h

theorem freshName (taken : List String) (stem : String) : All A (Lower.freshName taken stem) :=
  fun _ ↦ nofun

theorem unsupported {what : String} {pos : Position} (h : A (.invalid what)) :
    All A (Lower.unsupported what pos) := fun _ ↦ List.forall_mem_singleton.2 h

theorem toTemp (s : Scope) {ty : ValType} {rhs : Rhs} (h : ∀ x, A (.assign (.var x ty) ty rhs)) :
    All A (s.toTemp ty rhs) := by
  have htemp : All A (s.freshTemp ty) := bind (freshName _ _) fun _ ↦ pure _
  exact bind htemp fun _ ↦ bind (emit (h _)) fun _ ↦ pure _

end Lower.All

namespace Scope

variable {s : Scope} {E : Expr → Option ValType → Prop} {S : Stmt → Prop} {α : Type}

theorem Throughout.here {e : Expr} {hint : Option ValType} (h : s.Throughout E e hint) :
    E e hint := by
  cases h
  assumption

theorem Throughout.inside {e : Expr} {hint : Option ValType} (h : s.Throughout E e hint) :
    ∀ p ∈ s.parts e hint, s.Throughout E p.1 p.2 := by
  cases h
  assumption

theorem Throughout.unparen {e : Expr} {hint : Option ValType} (h : s.Throughout E e hint) :
    s.Throughout E e.unparen hint := by
  induction e using Expr.children_induction with
  | step e ih =>
    cases e with
    | paren e pos =>
      exact ih e (List.mem_singleton_self e) (h.inside (e, hint) (List.mem_singleton_self _))
    | int | bool | ident | this | binary | not | index | length | call | newObject | newArray
    | array => exact h

theorem Throughout.and {E' : Expr → Option ValType → Prop} {e : Expr} {hint : Option ValType}
    (h : s.Throughout E e hint) (h' : s.Throughout E' e hint) :
    s.Throughout (fun e hint ↦ E e hint ∧ E' e hint) e hint := by
  induction h with
  | intro e hint he _ ih =>
    exact .intro e hint ⟨he, h'.here⟩ fun p hp ↦ ih p hp (h'.inside p hp)

/-- What holds throughout an expression holds throughout each part. -/
theorem Throughout.nested {e : Expr} {hint : Option ValType} (h : s.Throughout E e hint) :
    s.Throughout (s.Throughout E) e hint := by
  induction h with
  | intro e hint he hp ih => exact .intro e hint (.intro e hint he hp) ih

abbrev Issues (s : Scope) (E : Expr → Option ValType → Prop) (S : Stmt → Prop) (x : Lower α) :
    Prop := x.All (s.Issued E S)

theorem issues_toTemp {ty : ValType} {rhs : Rhs}
    (h : ∀ x, s.Issued E S (.assign (.var x ty) ty rhs)) : s.Issues E S (s.toTemp ty rhs) :=
  .toTemp s h

theorem issues_lowerIdent {id : Ident} (he : Evaluates E S (.ident id)) {hint : Option ValType}
    (hhint : E (.ident id) hint ∨ hint = none) : s.Issues E S (s.lowerIdent id hint) := by
  unfold lowerIdent
  cases hb : s.binding id.name with
  | undeclared => exact All.bind (.unsupported (.undeclared _ he hb)) fun _ ↦ .pure _
  | field => exact issues_toTemp fun x ↦ .read x (.declared hb)
  | inherited => exact issues_toTemp fun x ↦ .read x (.inherited hhint)
  | param | «local» | cls => exact .pure _

theorem issues_lowerInOrder {es : List Expr} {hints : List ValType}
    (h : ∀ p ∈ inOrder hints es, s.Issues E S (s.lower p.1 p.2)) :
    s.Issues E S (lowerInOrder hints (es.map s.lower)) := by
  induction es generalizing hints with
  | nil => exact .pure _
  | cons e es ih =>
    obtain ⟨he, hes⟩ := List.forall_mem_cons.1 h
    exact All.bind he fun _ ↦ (ih hes).bind fun _ ↦ .pure _

theorem issues_storeFrom {es : List Expr} {array : Operand} {ty : ValType} (i : Nat)
    (h : ∀ e ∈ es, s.Issues E S (s.lower e (some ty)))
    (hstore : ∀ e ∈ es, ∀ i v, s.Gives e (some ty) v →
      s.Issued E S (.assign (.elem array (.int (Int32.ofNat i)) ty) ty (.value v))) :
    s.Issues E S (storeFrom array ty i (es.map s.lower)) := by
  induction es generalizing i with
  | nil => exact .pure _
  | cons e es ih =>
    obtain ⟨he, hes⟩ := List.forall_mem_cons.1 h
    obtain ⟨hv, hvs⟩ := List.forall_mem_cons.1 hstore
    exact All.bind he fun n ↦ (All.emit (hv i _ ⟨n, rfl⟩)).bind fun _ ↦ ih (i + 1) hes hvs

theorem issues_pack {p : Parameter} {tail : List Expr} (hbuilt : s.BuiltTy E (.ofTy p.symbol.ty))
    (h : ∀ e ∈ tail, s.Issues E S (s.lower e (some p.element)))
    (hstore : ∀ e ∈ tail, ∀ x i v, s.Gives e (some p.element) v →
      s.Issued E S (.assign (.elem (.var x (.ofTy p.symbol.ty)) (.int (Int32.ofNat i)) p.element)
        p.element (.value v))) :
    s.Issues E S (s.pack (.ofTy p.symbol.ty) (tail.map s.lower)) := by
  refine All.bind (issues_toTemp fun x ↦ .allocate x _ _ hbuilt) fun n ↦ ?_
  refine All.bind (.freshName _ _) fun n' ↦ All.bind (.emit (.packed _ _ _ hbuilt)) fun _ ↦ ?_
  exact All.bind (issues_storeFrom 0 h fun e he i v hv ↦ hstore e he _ i v hv) fun _ ↦ .pure _

theorem issues_lowerArgs {target : Option Signature} {args : List Expr}
    (hbuilt : ∀ p, s.packing? target args = some p → s.BuiltTy E (.ofTy p.symbol.ty))
    (h : ∀ p ∈ s.argParts target args, s.Issues E S (s.lower p.1 p.2))
    (hstore : ∀ p, s.packing? target args = some p → ∀ e ∈ packedArgs target args, ∀ x i v,
      s.Gives e (some p.element) v →
      s.Issued E S (.assign (.elem (.var x (.ofTy p.symbol.ty)) (.int (Int32.ofNat i)) p.element)
        p.element (.value v))) :
    s.Issues E S (s.lowerArgs target args (s.lowerEach args)) := by
  rw [s.lowerEach_eq_map]
  unfold argParts packing? at h
  unfold packing? at hstore hbuilt
  unfold lowerArgs
  simp only
  cases hp : target.bind (s.packed? · args) with
  | none =>
    rw [hp] at h
    exact issues_lowerInOrder h
  | some p =>
    rw [hp] at h
    obtain ⟨hfixed, hpacked⟩ := List.forall_mem_append.1 h
    rw [← List.map_take, ← List.map_drop]
    exact All.bind (issues_lowerInOrder hfixed) fun _ ↦
      All.bind (issues_pack (hbuilt p hp) (fun e he ↦ hpacked _ (List.mem_map_of_mem he))
        (hstore p hp)) fun _ ↦ .pure _

theorem issues_lowerCall {recv : Expr} {method : Ident} {args : List Expr} {pos : Position}
    {hint : Option ValType} (he : Evaluates E S (.call recv method args pos))
    (h : ∀ p ∈ s.parts (.call recv method args pos) hint, s.Issues E S (s.lower p.1 p.2)) :
    s.Issues E S (s.lowerCall recv method args hint) := by
  obtain ⟨hrecv, hargs⟩ := List.forall_mem_append.1 h
  have hlowered := issues_lowerArgs (fun _ ↦ .gathered) hargs
    fun p hp e hmem x i v hv ↦ .argument x i he hp hmem hv
  unfold lowerCall lowerCallWith
  cases hnamed : s.className? recv with
  | some cls => exact All.bind hlowered fun _ ↦ .pure _
  | none =>
    have hr : s.Issues E S (s.lower recv none) := hrecv (recv, none) (by simp [hnamed])
    exact All.bind hr fun _ ↦ All.bind hlowered fun _ ↦ .pure _

theorem issues_lowerAnd {left right : Expr} {pos : Position} {hint : Option ValType}
    (he : E (.binary .and left right pos) hint) (hl : s.Issues E S (s.lower left (some .bool)))
    (hr : s.Issues E S (s.lower right (some .bool))) :
    s.Issues E S (s.lowerAnd (s.lower left (some .bool)) (s.lower right (some .bool))) := by
  intro n
  rw [s.lowerAnd_apply]
  simp only [List.forall_mem_append, List.forall_mem_cons]
  exact ⟨hl n, .and _ he ⟨n, rfl⟩, .skip _, .goto _, .label _, hr _, .last _ he ⟨_, rfl⟩,
    .label _, nofun⟩

theorem issues_lowerNewObject {cls : Ident} {pos : Position} {hint : Option ValType}
    (he : E (.newObject cls pos) hint) : s.Issues E S (s.lowerNewObject cls pos) := by
  have hcreate : s.Issues E S (s.createObject cls.name) :=
    All.bind (issues_toTemp fun x ↦ .object x _) fun _ ↦
      All.bind (.emit (.construct ..)) fun _ ↦ .pure _
  rw [s.lowerNewObject_eq]
  split
  · exact hcreate
  · next hno =>
    exact All.bind (.unsupported (.unknownClass _ he (Bool.of_not_eq_true hno))) fun _ ↦
      hcreate

/-- All that an expression is lowered to is issued for it or for a part of it. -/
theorem issues_lower {e : Expr} {hint : Option ValType} (h : s.Throughout E e hint) :
    s.Issues E S (s.lower e hint) := by
  induction h with
  | intro e hint he _ ih =>
    cases e with
    | int | bool | this => exact .pure _
    | ident id => exact issues_lowerIdent (.inl ⟨hint, he⟩) (.inl he)
    | binary op left right pos =>
      cases op with
      | arith op =>
        have ⟨hl, hr⟩ := forall_mem_two.1 ih
        exact All.bind hl fun n ↦ All.bind hr fun n' ↦ issues_toTemp fun x ↦
          .arith x he ⟨n, rfl⟩ ⟨n', rfl⟩
      | less =>
        have ⟨hl, hr⟩ := forall_mem_two.1 ih
        exact All.bind hl fun n ↦ All.bind hr fun n' ↦ issues_toTemp fun x ↦
          .less x he ⟨n, rfl⟩ ⟨n', rfl⟩
      | and =>
        have ⟨hl, hr⟩ := forall_mem_two.1 ih
        exact issues_lowerAnd he hl hr
    | not e pos =>
      exact All.bind (ih _ List.mem_cons_self) fun n ↦ issues_toTemp fun x ↦ .not x he ⟨n, rfl⟩
    | paren e pos => exact ih _ List.mem_cons_self
    | index base idx pos =>
      have ⟨hb, hi⟩ := forall_mem_two.1 ih
      exact All.bind hb fun n ↦ All.bind hi fun n' ↦ issues_toTemp fun x ↦
        .index x he ⟨n, rfl⟩ ⟨n', rfl⟩ rfl
    | length base pos =>
      exact All.bind (ih _ List.mem_cons_self) fun n ↦ issues_toTemp fun x ↦
        .length x he ⟨n, rfl⟩
    | call recv method args pos =>
      exact All.bind (issues_lowerCall (.inl ⟨hint, he⟩) ih) fun n ↦ issues_toTemp fun x ↦
        .call x he ⟨n, rfl⟩
    | newObject cls pos => exact issues_lowerNewObject he
    | newArray size pos =>
      exact All.bind (ih _ List.mem_cons_self) fun n ↦ issues_toTemp fun x ↦
        .newArray x he ⟨n, rfl⟩
    | array elems pos =>
      refine All.bind (issues_toTemp fun x ↦ .allocate x _ _ (.literal he)) fun n ↦
        All.bind ?_ fun _ ↦ .pure _
      rw [s.lowerEach_eq_map]
      exact issues_storeFrom 0 (fun e hmem ↦ ih _ (List.mem_map_of_mem hmem)) fun e hmem i v hv ↦
        .element _ i he hmem rfl hv

theorem lowerCond_eq (cond : Expr) :
    (∃ left right pos, cond.unparen = .binary .less left right pos ∧ s.lowerCond cond = do
      let l ← s.lower left (some .int)
      let r ← s.lower right (some .int)
      return .less l r) ∨
    s.lowerCond cond = do return .value (← s.lower cond (some .bool)) := by
  unfold lowerCond
  split
  · next left right pos hless => exact .inl ⟨left, right, pos, hless, rfl⟩
  · exact .inr rfl

theorem issued_lowerCond {stmt : Stmt} {cond : Expr} (hs : S stmt) (hc : stmt.cond? = some cond)
    (h : s.Throughout E cond (some .bool)) (n : Numbering) (l : String) :
    s.Issued E S (.branch (s.lowerCond cond n).value l) := by
  rcases s.lowerCond_eq cond with ⟨left, right, pos, hless, heq⟩ | heq
  · rw [heq]
    exact .compare l (hless ▸ h.unparen).here ⟨n, rfl⟩ ⟨_, rfl⟩
  · rw [heq]
    exact .test l hs hc ⟨n, rfl⟩

theorem issues_lowerCond {cond : Expr} (h : s.Throughout E cond (some .bool)) :
    s.Issues E S (s.lowerCond cond) := by
  rcases s.lowerCond_eq cond with ⟨left, right, pos, hless, heq⟩ | heq
  · rw [heq]
    obtain ⟨hl, hr⟩ := forall_mem_two.1 (hless ▸ h.unparen).inside
    exact All.bind (issues_lower hl) fun _ ↦ All.bind (issues_lower hr) fun _ ↦ .pure _
  · rw [heq]
    exact All.bind (issues_lower h) fun _ ↦ .pure _

theorem issues_lowerIf {stmt : Stmt} {cond : Expr} (hs : S stmt) (hc : stmt.cond? = some cond)
    (h : s.Throughout E cond (some .bool)) {body other : Lower Unit} (hb : s.Issues E S body)
    (ho : s.Issues E S other) : s.Issues E S (s.lowerIf cond body other) := by
  have hbranch := issued_lowerCond (E := E) hs hc h
  have hcond : s.Issues E S (s.lowerCond cond) := issues_lowerCond h
  intro n
  rw [s.lowerIf_apply]
  simp only [List.forall_mem_append, List.forall_mem_cons]
  exact ⟨hcond _, hbranch _ _, .goto _, .label _, hb _, .goto _, .label _, ho _, .label _, nofun⟩

theorem issues_lowerWhile {stmt : Stmt} {cond : Expr} (hs : S stmt) (hc : stmt.cond? = some cond)
    (h : s.Throughout E cond (some .bool)) {body : Lower Unit} (hb : s.Issues E S body) :
    s.Issues E S (s.lowerWhile cond body) := by
  have hbranch := issued_lowerCond (E := E) hs hc h
  have hcond : s.Issues E S (s.lowerCond cond) := issues_lowerCond h
  intro n
  rw [s.lowerWhile_apply]
  simp only [List.forall_mem_append, List.forall_mem_cons]
  exact ⟨hcond _, hbranch _ _, .goto _, .label _, hb _, hcond _, hbranch _ _, .label _, nofun⟩

theorem issues_lowerEffect {e : Expr} {pos : Position} (hs : S (.expr e pos))
    (h : ∀ p ∈ s.stmtParts (.expr e pos), s.Throughout E p.1 p.2) :
    s.Issues E S (s.lowerEffect e) := by
  unfold lowerEffect
  simp only [stmtParts] at h
  split at h
  · next recv method args pos' hcall =>
    simp only [hcall]
    have hlowered := issues_lowerCall (.inr ⟨e, pos, hs, hcall⟩) fun p hp ↦ issues_lower (h p hp)
    exact All.bind hlowered fun n ↦ .emit (.effect hs hcall ⟨n, rfl⟩)
  · next id hid =>
    simp only [hid]
    exact All.bind (issues_lowerIdent (.inr ⟨e, pos, hs, hid⟩) (.inr rfl)) fun _ ↦ .pure _
  · next hcall _ =>
    have hunparen := (List.forall_mem_singleton.1 h).unparen
    split
    · next hno => exact absurd hno (hcall _ _ _ _)
    · exact All.bind (issues_lower hunparen) fun _ ↦ .pure _

theorem lowerAssign_eq (target : Ident) (index : Option Expr) (value : Expr) :
    s.lowerAssign target index value =
      match s.storage? target.name, s.fieldTy? target.name index.isSome value with
      | some dest, _ => s.assignVar dest index value
      | none, some ty => s.assignField target.name ty index value
      | none, none => Lower.unsupported s!"assignment to '{target.name}'" target.pos := by
  unfold lowerAssign storage? fieldTy?
  cases s.binding target.name <;> rfl

theorem issues_storeElement {a : Operand} {idx value : Expr}
    (hi : s.Issues E S (s.lower idx (some .int)))
    (hv : s.Issues E S (s.lower value (some (a.ty.element?.getD .int))))
    (hstore : ∀ i v, s.Gives idx (some .int) i → s.Gives value (some (a.ty.element?.getD .int)) v →
      s.Issued E S (.assign (.elem a i (a.ty.element?.getD .int)) (a.ty.element?.getD .int)
        (.value v))) :
    s.Issues E S (s.storeElement a idx value) :=
  All.bind hi fun n ↦ All.bind hv fun n' ↦ .emit (hstore _ _ ⟨n, rfl⟩ ⟨n', rfl⟩)

theorem issues_lowerAssign {target : Ident} {index : Option Expr} {value : Expr} {pos : Position}
    (hs : S (.assign target index value pos))
    (h : ∀ p ∈ s.stmtParts (.assign target index value pos), s.Throughout E p.1 p.2) :
    s.Issues E S (s.lowerAssign target index value) := by
  rw [lowerAssign_eq]
  simp only [stmtParts, targetTy?] at h
  cases hvar : s.storage? target.name with
  | some dest =>
    simp only [hvar] at h
    cases index with
    | none =>
      exact All.bind (issues_lower (h _ List.mem_cons_self)) fun n ↦
        .emit (.store hs hvar ⟨n, rfl⟩)
    | some idx =>
      obtain ⟨hi, hv⟩ := forall_mem_two.1 h
      exact issues_storeElement (issues_lower hi) (issues_lower hv) fun i v hgi hgv ↦
        .storeAt hs (.inl hvar) rfl hgi hgv
  | none =>
    cases hfield : s.fieldTy? target.name index.isSome value with
    | none => exact .unsupported (.unassignable _ hs hvar hfield)
    | some ty =>
      simp only [hvar, hfield] at h
      cases index with
      | none =>
        exact All.bind (issues_lower (h _ List.mem_cons_self)) fun n ↦
          .emit (.put hs hfield ⟨n, rfl⟩)
      | some idx =>
        obtain ⟨hi, hv⟩ := forall_mem_two.1 h
        refine All.bind (issues_toTemp fun x ↦ .read x (.stored hs hfield)) fun n ↦ ?_
        exact issues_storeElement (issues_lower hi) (issues_lower hv) fun i v hgi hgv ↦
          .storeAt hs (.inr ⟨ty, _, hfield, rfl⟩) rfl hgi hgv

theorem issues_lowerReturn {value : Option Expr} {pos : Position} (hs : S (.return value pos))
    (h : ∀ p ∈ s.stmtParts (.return value pos), s.Throughout E p.1 p.2) :
    s.Issues E S (s.lowerReturn value) := by
  cases value with
  | none => exact .emit (.returnNone hs)
  | some e =>
    exact All.bind (issues_lower (h _ List.mem_cons_self)) fun n ↦
      .emit (.returnSome hs ⟨n, rfl⟩)

mutual

theorem issues_lowerStmt : ∀ {stmt : Stmt}, s.StmtThroughout E S stmt →
    s.Issues E S (s.lowerStmt stmt)
  | .var _, _ => .pure _
  | .block body _, .intro _ _ _ h => issues_lowerStmts h
  | .ifThen cond body _, .intro _ hs hc h =>
    issues_lowerIf hs rfl (hc _ List.mem_cons_self)
      (issues_lowerStmt (h _ List.mem_cons_self)) (.pure _)
  | .ifElse cond body other _, .intro _ hs hc h =>
    have ⟨hb, ho⟩ := forall_mem_two.1 h
    issues_lowerIf hs rfl (hc _ List.mem_cons_self) (issues_lowerStmt hb)
      (issues_lowerStmt ho)
  | .while cond body _, .intro _ hs hc h =>
    issues_lowerWhile hs rfl (hc _ List.mem_cons_self)
      (issues_lowerStmt (h _ List.mem_cons_self))
  | .expr e _, .intro _ hs h _ => issues_lowerEffect hs h
  | .assign .., .intro _ hs h _ => issues_lowerAssign hs h
  | .return .., .intro _ hs h _ => issues_lowerReturn hs h

/-- All that a method body is lowered to is issued for one of its parts. -/
theorem issues_lowerStmts : ∀ {stmts : List Stmt}, (∀ x ∈ stmts, s.StmtThroughout E S x) →
    s.Issues E S (s.lowerStmts stmts)
  | [], _ => .pure _
  | _ :: _, h =>
    have ⟨hfirst, hrest⟩ := List.forall_mem_cons.1 h
    All.bind (issues_lowerStmt hfirst) fun _ ↦ issues_lowerStmts hrest

end

end Scope

end MiniJava

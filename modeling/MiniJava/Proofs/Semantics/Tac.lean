import MiniJava.Proofs.Semantics.Source
import MiniJava.Tac.Class

namespace MiniJava.Tac

inductive Action (V : Type) where
  | static (cls method : String) (args : List V)
  | virtual (type : ValType) (recv : V) (method : String) (args : List V)
  | superInit (recv : V)
  | init (type : ValType) (recv : V)
  | new (cls : String)
  | newArray (type : ValType) (size : V)
  | length (array : V)

structure Interp (V W : Type) where
  lit : Int32 → ValType → V
  this : V
  cls : String → V
  isTrue : V → Bool
  arith : Arith → V → V → Effect W V
  less : V → V → Effect W V
  not : V → Effect W V
  readField : String → ValType → Effect W V
  writeField : String → ValType → V → Effect W Unit
  load : ValType → V → V → Effect W V
  store : ValType → V → V → V → Effect W Unit
  act : Action V → Effect W V

variable {V W : Type}

def Interp.ofSource (I : MiniJava.Interp V W) : Interp V W where
  lit v t := if t = .bool then I.bool (v ≠ 0) else I.int v.toInt
  this := I.this
  cls := I.cls
  isTrue := I.isTrue
  arith := I.arith
  less := I.less
  not := I.not
  readField name _ := I.readField name
  writeField name _ v := I.writeField name v
  load _ array i := I.load array i
  store _ array i v := I.store array i v
  act
    | .static cls method args => I.callStatic cls method args
    | .virtual _ recv method args => I.callVirtual recv method args
    | .superInit recv | .init _ recv => do
      I.construct recv
      return recv
    | .new cls => I.newObject cls
    | .newArray t size => I.newArray (t.element?.getD .int) size
    | .length array => I.length array

section

variable (I : Interp V W) (ρ : Store V)

def Operand.eval : Operand → Effect W V
  | .lit v t => return I.lit v t
  | .var x _ | .param _ x _ => return ρ x
  | .elem array index t => do
    let a ← array.eval
    let i ← index.eval
    I.load t a i
  | .this _ => return I.this
  | .cls c => return I.cls c

def Operand.evalAll : List Operand → Effect W (List V)
  | [] => return []
  | x :: xs => do
    let v ← x.eval I ρ
    let vs ← evalAll xs
    return v :: vs

def Call.eval (c : Call) : Effect W V :=
  match c.kind with
  | .static cls method args => do
    let vs ← Operand.evalAll I ρ args
    I.act (.static cls method vs)
  | .virtual recv method args => do
    let r ← recv.eval I ρ
    let vs ← Operand.evalAll I ρ args
    I.act (.virtual recv.ty r method vs)
  | .special recv => do
    let r ← recv.eval I ρ
    match recv with
    | .this _ => I.act (.superInit r)
    | _ => I.act (.init recv.ty r)
  | .new cls => I.act (.new cls)
  | .newArray size => do
    let n ← size.eval I ρ
    I.act (.newArray c.ret n)
  | .length array => do
    let a ← array.eval I ρ
    I.act (.length a)

def Rhs.eval : Rhs → Effect W V
  | .value x => x.eval I ρ
  | .arith op left right => do
    let l ← left.eval I ρ
    let r ← right.eval I ρ
    I.arith op l r
  | .less left right => do
    let l ← left.eval I ρ
    let r ← right.eval I ρ
    I.less l r
  | .not x => do
    let v ← x.eval I ρ
    I.not v
  | .field name t => I.readField name t
  | .call c => c.eval I ρ

def Cond.eval : Cond → Effect W V
  | .value x => x.eval I ρ
  | .less left right => do
    let l ← left.eval I ρ
    let r ← right.eval I ρ
    I.less l r

end

inductive Flow (V W : Type) where
  | next (store : Store V) (world : W)
  | jump (label : String) (store : Store V) (world : W)
  | returned (value : Option V) (store : Store V) (world : W)
  | aborted (store : Store V) (world : W)
  | stuck

def Flow.after {α : Type} (x : Effect W α) (ρ : Store V) (w : W) (rest : α → W → Flow V W) :
    Flow V W :=
  match x w with
  | .done a w' => rest a w'
  | .abort w' => .aborted ρ w'

def Instr.exec (I : Interp V W) (ρ : Store V) (w : W) : Instr → Flow V W
  | .assign (.var x _) _ rhs | .assign (.param _ x _) _ rhs =>
    .after (rhs.eval I ρ) ρ w fun v w' ↦ .next (ρ.set x v) w'
  | .assign (.elem array index t) _ rhs =>
    let effect : Effect W Unit := do
      let a ← array.eval I ρ
      let i ← index.eval I ρ
      let v ← rhs.eval I ρ
      I.store t a i v
    .after effect ρ w fun _ w' ↦ .next ρ w'
  | .assign (.lit ..) .. | .assign (.this _) .. | .assign (.cls _) .. => .stuck
  | .putField name t x =>
    let effect : Effect W Unit := do
      let v ← x.eval I ρ
      I.writeField name t v
    .after effect ρ w fun _ w' ↦ .next ρ w'
  | .call c => .after (c.eval I ρ) ρ w fun _ w' ↦ .next ρ w'
  | .branch c l => .after (c.eval I ρ) ρ w fun v w' ↦
    if I.isTrue v then .jump l ρ w' else .next ρ w'
  | .goto l => .jump l ρ w
  | .label _ => .next ρ w
  | .return _ none => .returned none ρ w
  | .return _ (some x) => .after (x.eval I ρ) ρ w fun v w' ↦ .returned (some v) ρ w'
  | .invalid _ => .stuck

def labelMap (code : List Instr) : List (String × Nat) :=
  code.zipIdx.filterMap fun (i, n) ↦ i.label?.map (·, n)

/-- Where a label is; its last definition counts. -/
def target? (code : List Instr) (l : String) : Option Nat :=
  ((labelMap code).findRev? (·.1 == l)).map (·.2)

structure Config (V W : Type) where
  pc : Nat
  store : Store V
  world : W

inductive Step (V W : Type) where
  | run (config : Config V W)
  | returned (value : Option V) (store : Store V) (world : W)
  | aborted (store : Store V) (world : W)
  | stuck

def step (I : Interp V W) (code : List Instr) (c : Config V W) : Step V W :=
  match code[c.pc]? with
  | none => .stuck
  | some i =>
    match i.exec I c.store c.world with
    | .next ρ w => .run ⟨c.pc + 1, ρ, w⟩
    | .jump l ρ w => (target? code l).elim .stuck fun pc ↦ .run ⟨pc, ρ, w⟩
    | .returned v ρ w => .returned v ρ w
    | .aborted ρ w => .aborted ρ w
    | .stuck => .stuck

inductive Run (I : Interp V W) (code : List Instr) : Nat → Config V W → Config V W → Prop
  | zero (c : Config V W) : Run I code 0 c c
  | cons {n : Nat} {a b c : Config V W} :
      step I code a = .run b → Run I code n b c → Run I code (n + 1) a c

variable (I : Interp V W) (code : List Instr)

def Reaches (a b : Config V W) : Prop := ∃ n, Run I code n a b

def Returns (a : Config V W) (v : Option V) (ρ : Store V) (w : W) : Prop :=
  ∃ b, Reaches I code a b ∧ step I code b = .returned v ρ w

def Aborts (a : Config V W) (ρ : Store V) (w : W) : Prop :=
  ∃ b, Reaches I code a b ∧ step I code b = .aborted ρ w

def Endless (a : Config V W) : Prop := ∀ n, ∃ b, Run I code n a b

theorem Method.labels_eq (m : Method) : m.labels = labelMap m.code := rfl

end MiniJava.Tac

import Mathlib.Logic.Relation
import MiniJava.Jasmin.Class
import MiniJava.Proofs.Semantics.Effect
import MiniJava.Proofs.Semantics.Placed

namespace MiniJava.Jasmin

/-- What the opcodes of a stack machine mean. There is no overloading: a method is known by its
class and its name. -/
structure Interp (V W : Type) where
  int : Int → V
  isZero : V → Bool
  less : V → V → Bool
  isZero_zero : isZero (int 0) = true
  isZero_one : isZero (int 1) = false
  arith : Arith → V → V → Effect W V
  arrayLoad : ElementKind → V → V → Effect W V
  arrayStore : ElementKind → V → V → V → Effect W Unit
  getfield : String → String → JType → V → Effect W V
  putfield : String → String → JType → V → V → Effect W Unit
  /-- The receiver, if there is one, comes first. -/
  invoke : Invocation → String → String → List V → Effect W V
  new : String → Effect W V
  newarray : JType → V → Effect W V
  arraylength : V → Effect W V

/-- Words of 32 bits in a world that lists the methods that were invoked. There are no objects. -/
def Interp.words : Interp Int32 (List String) where
  int := Int32.ofInt
  isZero v := v == 0
  less a b := a < b
  isZero_zero := rfl
  isZero_one := rfl
  arith
    | .add, a, b => return a + b
    | .sub, a, b => return a - b
    | .mul, a, b => return a * b
    | .div, a, b => if b = 0 then Outcome.abort else return a / b
  arrayLoad _ _ _ := Outcome.abort
  arrayStore _ _ _ _ := Outcome.abort
  getfield _ _ _ _ := Outcome.abort
  putfield _ _ _ _ _ := Outcome.abort
  invoke _ _ method _ := fun w ↦ .done 0 (method :: w)
  new _ := Outcome.abort
  newarray _ _ := Outcome.abort
  arraylength _ := Outcome.abort

abbrev Locals (V : Type) := Nat → V

inductive Flow (V W : Type) where
  | next (stack : List V) (slots : Locals V) (world : W)
  | jump (label : String) (stack : List V) (slots : Locals V) (world : W)
  | returned (value : Option V) (world : W)
  | aborted (world : W)
  | stuck

variable {V W α : Type}

def Flow.after (x : Effect W α) (w : W) (rest : α → W → Flow V W) : Flow V W :=
  match x w with
  | .done a w' => rest a w'
  | .abort w' => .aborted w'

def Flow.when (b : Bool) (l : String) (S : List V) (L : Locals V) (w : W) : Flow V W :=
  if b then .jump l S L w else .next S L w

def Flow.pop (S : List V) (rest : V → List V → Flow V W) : Flow V W :=
  match S with
  | [] => .stuck
  | v :: S => rest v S

def Descriptor.arity (d : Descriptor) (mode : Invocation) : Nat :=
  d.params.length + if mode = .static then 0 else 1

def Jump.exec (J : Interp V W) (l : String) (L : Locals V) (w : W) (S : List V) : Jump → Flow V W
  | .goto => .jump l S L w
  | .ifeq => .pop S fun v S ↦ .when (J.isZero v) l S L w
  | .ifne => .pop S fun v S ↦ .when (!J.isZero v) l S L w
  | .iflt => .pop S fun v S ↦ .when (J.less v (J.int 0)) l S L w
  | .ifgt => .pop S fun v S ↦ .when (J.less (J.int 0) v) l S L w
  | .ifIcmplt => .pop S fun b S ↦ .pop S fun a S ↦ .when (J.less a b) l S L w

def Opcode.exec (J : Interp V W) (L : Locals V) (w : W) (S : List V) : Opcode → Flow V W
  | .iconst v => if -1 ≤ v && v ≤ 5 then .next (J.int v.toInt :: S) L w else .stuck
  | .bipush v => .next (J.int v.toInt8.toInt :: S) L w
  | .sipush v => .next (J.int v.toInt16.toInt :: S) L w
  | .ldc v => .next (J.int v.toInt :: S) L w
  | .load _ i => .next (L i :: S) L w
  | .store _ i => .pop S fun v S ↦ .next S (fun k ↦ if k = i then v else L k) w
  | .arrayLoad k => .pop S fun i S ↦ .pop S fun a S ↦
    .after (J.arrayLoad k a i) w fun v ↦ .next (v :: S) L
  | .arrayStore k => .pop S fun v S ↦ .pop S fun i S ↦ .pop S fun a S ↦
    .after (J.arrayStore k a i v) w fun _ ↦ .next S L
  | .arith op => .pop S fun r S ↦ .pop S fun l S ↦
    .after (J.arith op l r) w fun v ↦ .next (v :: S) L
  | .jump t l => t.exec J l L w S
  | .getfield cls f t => .pop S fun o S ↦
    .after (J.getfield cls f t o) w fun v ↦ .next (v :: S) L
  | .putfield cls f t => .pop S fun v S ↦ .pop S fun o S ↦
    .after (J.putfield cls f t o v) w fun _ ↦ .next S L
  | .invoke mode owner method desc =>
    let n := desc.arity mode
    if S.length < n then .stuck else
      .after (J.invoke mode owner method (S.take n).reverse) w fun v ↦
        .next (if desc.ret = .void then S.drop n else v :: S.drop n) L
  | .new cls => .after (J.new cls) w fun v ↦ .next (v :: S) L
  | .newarray t => .pop S fun n S ↦ .after (J.newarray t n) w fun v ↦ .next (v :: S) L
  | .arraylength => .pop S fun a S ↦ .after (J.arraylength a) w fun v ↦ .next (v :: S) L
  | .pop => .pop S fun _ S ↦ .next S L w
  | .return none => .returned none w
  | .return (some _) => .pop S fun v _ ↦ .returned (some v) w

structure Config (V W : Type) where
  pc : Nat
  stack : List V
  slots : Locals V
  world : W

inductive Step (V W : Type) where
  | run (config : Config V W)
  /-- To a label that is defined elsewhere. -/
  | left (label : String) (stack : List V) (slots : Locals V) (world : W)
  | returned (value : Option V) (world : W)
  | aborted (world : W)
  | stuck

def Line.label? : Line α → Option String
  | .label name => some name
  | .op .. | .comment _ => none

def target? (lines : List (Line α)) (l : String) : Option Nat :=
  lines.findIdx? (·.label? == some l)

section

variable (J : Interp V W) (lines : List (Line Opcode))

def step (a : Config V W) : Step V W :=
  match lines[a.pc]? with
  | none => .stuck
  | some (.label _) | some (.comment _) => .run { a with pc := a.pc + 1 }
  | some (.op o _) =>
    match o.exec J a.slots a.world a.stack with
    | .next S L w => .run ⟨a.pc + 1, S, L, w⟩
    | .jump l S L w => (target? lines l).elim (.left l S L w) fun pc ↦ .run ⟨pc, S, L, w⟩
    | .returned v w => .returned v w
    | .aborted w => .aborted w
    | .stuck => .stuck

def Reaches : Config V W → Config V W → Prop :=
  Relation.ReflTransGen fun a b ↦ step J lines a = .run b

def Aborts (a : Config V W) (w : W) : Prop := ∃ b, Reaches J lines a b ∧ step J lines b = .aborted w

end

end MiniJava.Jasmin

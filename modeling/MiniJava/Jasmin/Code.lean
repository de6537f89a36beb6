import MiniJava.Finding
import MiniJava.Jasmin.Depth
import MiniJava.Jasmin.Opcode

namespace MiniJava.Jasmin

open Tac

abbrev Outcome := Except Finding (List (Line Opcode))

def kindOf (t : ValType) : Kind := if t.isReference then .ref else .int

def elementKind (t : ValType) : ElementKind :=
  if t = .bool then .boolean else if t.isReference then .ref else .int

def trueLabel (n : Nat) : String := s!"cmp_true_{n}"

def endLabel (n : Nat) : String := s!"cmp_end_{n}"

/-- Pushes 1 after a jump to the true label and 0 otherwise. One of the two pushes runs, so only the
first is counted. -/
def pushBoolean (n : Nat) : List (Line Opcode) :=
  [.op (.iconst 0) 1, .op (.jump .goto (endLabel n)) 0, .label (trueLabel n), .op (.iconst 1) 0,
    .label (endLabel n)]

def loadThis : Line Opcode := .op (.load .ref 0) 1

variable (c : Tac.Class) (m : Tac.Method)

def unsupported (what : String) : Finding :=
  .located (.unsupported s!"{what} in method '{m.name}'") .synthetic

def slot (name : String) : Except Finding (Kind × Nat) :=
  match m.slots.get? name with
  | some (i, t) => .ok (kindOf t, i)
  | none => .error (.missingSlot name m.name)

def load : Operand → Outcome
  | .lit v _ => return [.op (.constant v) 1]
  | .var name _ | .param _ name _ => do
    let (kind, i) ← slot m name
    return [.op (.load kind i) 1]
  | .elem array index t => do
    let a ← load array
    let i ← load index
    return a ++ i ++ [.op (.arrayLoad (elementKind t)) (-1)]
  | .this _ => return [loadThis]
  | .cls name => .error (unsupported m s!"class '{name}' used as a value")

def loadAll : List Operand → Outcome
  | [] => return []
  | x :: xs => do
    let first ← load m x
    let rest ← loadAll xs
    return first ++ rest

def loadPlace (array index : Operand) : Outcome := do
  let a ← load m array
  let i ← load m index
  return a ++ i

def store : Operand → Except Finding (Line Opcode)
  | .var name _ | .param _ name _ => do
    let (kind, i) ← slot m name
    return .op (.store kind i) (-1)
  | x => .error (unsupported m s!"store into '{x.text}'")

/-- Jumps if the left operand is less. Against a literal zero one operand is enough. -/
def jumpLess (left right : Operand) (label : String) : Outcome :=
  if right.literal? = some 0 then do
    return (← load m left) ++ [.op (.jump .iflt label) (-1)]
  else if left.literal? = some 0 then do
    return (← load m right) ++ [.op (.jump .ifgt label) (-1)]
  else do
    let l ← load m left
    let r ← load m right
    return l ++ r ++ [.op (.jump .ifIcmplt label) (-2)]

/-- A method of the class itself is called as it is declared, any other as it is used. -/
def callDescriptor (owner method : String) (args : List Operand) (ret : ValType) : Descriptor :=
  match if owner = c.name then c.method? method else none with
  | some declared => c.methodDescriptor declared
  | none => c.descriptor (args.map Operand.ty) ret

def owner : ValType → Except Finding String
  | .cls name => .ok name
  | .string => .ok stringPath
  | t => .error (unsupported m s!"method call on a value of type '{t.text}'")

def callDelta (args : List Operand) (ret : ValType) : Int :=
  (if ret = .void then 0 else 1) - (Int32.ofNat args.length).toInt

def constructorOwner : Operand → Except Finding String
  | .this _ => .ok c.superPath
  | x => c.classPath <$> owner m x.ty

def call (call : Call) : Outcome :=
  match call.kind with
  | .static cls method args => do
    let desc := callDescriptor c cls method args call.ret
    let values ← loadAll m args
    return values ++
      [.op (.invoke .static (c.classPath cls) method desc) (callDelta args call.ret)]
  | .virtual recv method args => do
    let cls ← owner m recv.ty
    let desc := callDescriptor c cls method args call.ret
    let receiver ← load m recv
    let values ← loadAll m args
    return receiver ++ values ++
      [.op (.invoke .virtual (c.classPath cls) method desc) (callDelta args call.ret - 1)]
  | .special recv => do
    let path ← constructorOwner c m recv
    let receiver ← load m recv
    return receiver ++ [.op (.invoke .special path "<init>" ⟨[], .void⟩) (-1)]
  | .new cls => return [.op (.new (c.classPath cls)) 1]
  | .newArray size => do
    let n ← load m size
    return n ++ [.op (.newarray (call.ret.element?.elim .int c.jtype)) 0]
  | .length array => do
    let a ← load m array
    return a ++ [.op .arraylength 0]

def rhs (n : Nat) : Rhs → Outcome
  | .value x => load m x
  | .arith op left right => do
    let l ← load m left
    let r ← load m right
    return l ++ r ++ [.op (.arith op) (-1)]
  | .less left right => do
    let test ← jumpLess m left right (trueLabel n)
    return test ++ pushBoolean n
  | .not x => do
    let v ← load m x
    return v ++ [.op (.jump .ifeq (trueLabel n)) (-1)] ++ pushBoolean n
  | .field name t => return [loadThis, .op (.getfield c.name name (c.jtype t)) 0]
  | .call k => call c m k

def returnLine (t : ValType) : Line Opcode :=
  if t = .void then .op (.return none) 0 else .op (.return (some (kindOf t))) (-1)

/-- The lines of an instruction when `n` is the next number for labels of comparisons, and the next
number after it. A number is taken as soon as a comparison is begun. -/
def instr (n : Nat) : Instr → Outcome × Nat
  | .assign (.elem array index t) _ r =>
    match loadPlace m array index with
    | .error f => (.error f, n)
    | .ok place => (do
        let v ← rhs c m n r
        return place ++ v ++ [.op (.arrayStore (elementKind t)) (-3)], n + r.comparisons)
  | .assign dest _ r => (do
      let v ← rhs c m n r
      return v ++ [← store m dest], n + r.comparisons)
  | .putField name t x => (do
      let v ← load m x
      return loadThis :: v ++ [.op (.putfield c.name name (c.jtype t)) (-2)], n)
  | .call k => (do
      let v ← call c m k
      return v ++ if k.ret = .void then [] else [.op .pop (-1)], n)
  | .branch (.value x) label => (do
      let v ← load m x
      return v ++ [.op (.jump .ifne label) (-1)], n)
  | .branch (.less left right) label => (jumpLess m left right label, n)
  | .goto label => (.ok [.op (.jump .goto label) 0], n)
  | .label name => (.ok [.label name], n)
  | .return t none => (.ok [returnLine t], n)
  | .return t (some x) => (do
      let v ← load m x
      return v ++ [returnLine t], n)
  | .invalid reason => (.ok [.comment s!"ERROR: {reason}"], n)

end MiniJava.Jasmin

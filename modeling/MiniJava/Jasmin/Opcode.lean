import MiniJava.Jasmin.Descriptor

namespace MiniJava.Jasmin

inductive Kind where
  | int
  | ref
deriving DecidableEq

inductive ElementKind where
  | int
  | boolean
  | ref
deriving DecidableEq

inductive Jump where
  | goto
  | ifeq
  | ifne
  | iflt
  | ifgt
  | ifIcmplt
deriving DecidableEq

inductive Invocation where
  | static
  | virtual
  | special
deriving DecidableEq

inductive Opcode where
  | iconst (value : Int32)
  | bipush (value : Int32)
  | sipush (value : Int32)
  | ldc (value : Int32)
  | load (kind : Kind) (slot : Nat)
  | store (kind : Kind) (slot : Nat)
  | arrayLoad (kind : ElementKind)
  | arrayStore (kind : ElementKind)
  | arith (op : Arith)
  | jump (test : Jump) (label : String)
  | getfield (cls field : String) (ty : JType)
  | putfield (cls field : String) (ty : JType)
  | invoke (mode : Invocation) (owner method : String) (desc : Descriptor)
  | new (cls : String)
  | newarray (element : JType)
  | arraylength
  | pop
  | return (kind : Option Kind)
deriving DecidableEq

def Kind.letter : Kind → String
  | .int => "i"
  | .ref => "a"

def ElementKind.letter : ElementKind → String
  | .int => "i"
  | .boolean => "b"
  | .ref => "a"

def Jump.text : Jump → String
  | .goto => "goto"
  | .ifeq => "ifeq"
  | .ifne => "ifne"
  | .iflt => "iflt"
  | .ifgt => "ifgt"
  | .ifIcmplt => "if_icmplt"

def Invocation.text : Invocation → String
  | .static => "invokestatic"
  | .virtual => "invokevirtual"
  | .special => "invokespecial"

def arithText : Arith → String
  | .add => "iadd"
  | .sub => "isub"
  | .mul => "imul"
  | .div => "idiv"

def slotText (slot : Nat) : String := if slot ≤ 3 then s!"_{slot}" else s!" {slot}"

/-- Arrays of primitive values have an opcode of their own. Of an object only the path is written,
of an array the whole descriptor. -/
def newarrayText : JType → String
  | .int => "newarray int"
  | .boolean => "newarray boolean"
  | .object path => "anewarray " ++ path
  | t => "anewarray " ++ t.text

def Opcode.text : Opcode → String
  | .iconst v => if v = -1 then "iconst_m1" else s!"iconst_{v.toInt}"
  | .bipush v => s!"bipush {v.toInt}"
  | .sipush v => s!"sipush {v.toInt}"
  | .ldc v => s!"ldc {v.toInt}"
  | .load k slot => s!"{k.letter}load{slotText slot}"
  | .store k slot => s!"{k.letter}store{slotText slot}"
  | .arrayLoad k => k.letter ++ "aload"
  | .arrayStore k => k.letter ++ "astore"
  | .arith op => arithText op
  | .jump test label => s!"{test.text} {label}"
  | .getfield cls field ty => s!"getfield {cls}/{field} {ty.text}"
  | .putfield cls field ty => s!"putfield {cls}/{field} {ty.text}"
  | .invoke mode owner method desc => s!"{mode.text} {owner}/{method}{desc.text}"
  | .new cls => "new " ++ cls
  | .newarray element => newarrayText element
  | .arraylength => "arraylength"
  | .pop => "pop"
  | .return none => "return"
  | .return (some k) => k.letter ++ "return"

def Opcode.constant (v : Int32) : Opcode :=
  if -1 ≤ v && v ≤ 5 then .iconst v
  else if -128 ≤ v && v ≤ 127 then .bipush v
  else if -32768 ≤ v && v ≤ 32767 then .sipush v
  else .ldc v

end MiniJava.Jasmin

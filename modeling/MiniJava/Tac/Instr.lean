import MiniJava.Operator
import MiniJava.Tac.ValType

namespace MiniJava.Tac

inductive Operand where
  | lit (value : Int32) (ty : ValType)
  /-- A local variable or a temporary. -/
  | var (name : String) (ty : ValType)
  | param (index : Nat) (name : String) (ty : ValType)
  | elem (array index : Operand) (ty : ValType)
  | this (cls : String)
  /-- A class, as the receiver of a static call. -/
  | cls (name : String)
deriving DecidableEq

namespace Operand

def int (value : Int32) : Operand := .lit value .int

def bool (value : Bool) : Operand := .lit (if value then 1 else 0) .bool

def ty : Operand → ValType
  | .lit _ t | .var _ t | .param _ _ t | .elem _ _ t => t
  | .this c | .cls c => .cls c

def literal? : Operand → Option Int32
  | .lit v _ => some v
  | _ => none

def parts : Operand → List Operand
  | .elem a i t => .elem a i t :: (a.parts ++ i.parts)
  | o => [o]

end Operand

inductive CallKind where
  | static (cls method : String) (args : List Operand)
  | virtual (recv : Operand) (method : String) (args : List Operand)
  /-- A constructor run; on `this` it is the superclass's. -/
  | special (recv : Operand)
  | new (cls : String)
  /-- The element type is that of the call's result. -/
  | newArray (size : Operand)
  | length (array : Operand)
deriving DecidableEq

structure Call where
  kind : CallKind
  ret : ValType
deriving DecidableEq

inductive Rhs where
  | value (operand : Operand)
  | arith (op : Arith) (left right : Operand)
  | less (left right : Operand)
  | not (operand : Operand)
  | field (name : String) (ty : ValType)
  | call (call : Call)
deriving DecidableEq

inductive Cond where
  | value (operand : Operand)
  | less (left right : Operand)
deriving DecidableEq

inductive Instr where
  | assign (dest : Operand) (ty : ValType) (rhs : Rhs)
  | putField (name : String) (ty : ValType) (value : Operand)
  | call (call : Call)
  | branch (cond : Cond) (label : String)
  | goto (label : String)
  | label (name : String)
  | return (ty : ValType) (value : Option Operand)
  /-- Stands for a construct that has no lowering rule. -/
  | invalid (reason : String)
deriving DecidableEq

def CallKind.operands : CallKind → List Operand
  | .static _ _ args => args
  | .virtual recv _ args => recv :: args
  | .special x | .newArray x | .length x => [x]
  | .new _ => []

def Rhs.operands : Rhs → List Operand
  | .value x | .not x => [x]
  | .arith _ l r | .less l r => [l, r]
  | .field .. => []
  | .call c => c.kind.operands

/-- How many comparisons yield a value that has to be stored. -/
def Rhs.comparisons : Rhs → Nat
  | .less .. | .not _ => 1
  | .value _ | .arith .. | .field .. | .call _ => 0

def Cond.operands : Cond → List Operand
  | .value x => [x]
  | .less l r => [l, r]

namespace Instr

def operands : Instr → List Operand
  | .assign dest _ rhs => dest :: rhs.operands
  | .putField _ _ x => [x]
  | .call c => c.kind.operands
  | .branch c _ => c.operands
  | .return _ x => x.toList
  | .goto _ | .label _ | .invalid _ => []

def mentions (i : Instr) : List Operand := i.operands.flatMap Operand.parts

def isReturn : Instr → Bool
  | .return .. => true
  | _ => false

def label? : Instr → Option String
  | .label name => some name
  | _ => none

end Instr

end MiniJava.Tac

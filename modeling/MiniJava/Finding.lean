import MiniJava.Position

namespace MiniJava

inductive FindingKind where
  | unresolved
  | incompatible
  | structural
  | generation
deriving DecidableEq

inductive Stage where
  | semantic
  | generation
deriving DecidableEq

def Stage.text : Stage → String
  | .semantic => "semantic"
  | .generation => "generation"

inductive Fault where
  | undeclaredVariable (name : String)
  | unresolvedCall (receiver method : String)
  | unknownClass (name : String)
  | operandType (op expected found : String)
  | notAnArray (found : String)
  | indexNotInt (found : String)
  | mixedElements (first other : String)
  | conditionNotBoolean (found : String)
  | unassignable (target value : String)
  | returnType (method expected found : String)
  | argumentType (method : String) (index : Nat) (expected found : String)
  | argumentCount (method : String) (expected found : Nat)
  | mainNotPublicStatic
  | mainNotVoid
  | mainParamCount
  | mainParamType
  | missingReturn (method : String)
  | returnInVoid (method : String)
  | unsupported (what : String)
deriving DecidableEq

namespace Fault

def kind : Fault → FindingKind
  | undeclaredVariable _ | unresolvedCall .. | unknownClass _ => .unresolved
  | operandType .. | notAnArray _ | indexNotInt _ | mixedElements .. | conditionNotBoolean _
  | unassignable .. | returnType .. | argumentType .. | argumentCount .. => .incompatible
  | mainNotPublicStatic | mainNotVoid | mainParamCount | mainParamType | missingReturn _
  | returnInVoid _ => .structural
  | unsupported _ => .generation

def message : Fault → String
  | undeclaredVariable name => s!"undeclared variable '{name}'"
  | unresolvedCall receiver method => s!"cannot resolve method '{method}' on '{receiver}'"
  | unknownClass name => s!"unknown class '{name}'"
  | operandType op expected found => s!"operator '{op}' expects {expected} operands, found {found}"
  | notAnArray found => s!"'{found}' is not an array"
  | indexNotInt found => s!"array index must be int, found {found}"
  | mixedElements first other => s!"array literal mixes {first} and {other}"
  | conditionNotBoolean found => s!"condition must be boolean, found {found}"
  | unassignable target value => s!"cannot assign {value} to {target}"
  | returnType method expected found => s!"method '{method}' returns {expected}, found {found}"
  | argumentType method index expected found =>
    s!"argument {index} of '{method}' expects {expected}, found {found}"
  | argumentCount method expected found =>
    s!"'{method}' expects {expected} arguments, found {found}"
  | mainNotPublicStatic => "main method must be public and static"
  | mainNotVoid => "main method must return void"
  | mainParamCount => "main method must have a single parameter"
  | mainParamType => "main method parameter must be a String[]"
  | missingReturn method => s!"method '{method}' must end with a return statement"
  | returnInVoid method => s!"void method '{method}' cannot return a value"
  | unsupported what => s!"no generation rule for {what}"

end Fault

inductive Finding where
  | located (fault : Fault) (pos : Position)
  /-- A variable of the generated code has no local slot. -/
  | missingSlot (name method : String)
  /-- Generated code takes more from the operand stack than it put there. -/
  | underflow (method : String)
deriving DecidableEq

namespace Finding

def pos : Finding → Position
  | .located _ p => p
  | .missingSlot .. | .underflow _ => .synthetic

def kind : Finding → FindingKind
  | .located f _ => f.kind
  | .missingSlot .. | .underflow _ => .generation

def stage (f : Finding) : Stage :=
  match f.kind with
  | .generation => .generation
  | .unresolved | .incompatible | .structural => .semantic

def message : Finding → String
  | .located f _ => f.message
  | .missingSlot name method => s!"no local slot for '{name}' in method '{method}'"
  | .underflow method => s!"operand stack underflow in method '{method}'"

def text : Finding → String
  | .located f p => s!"at {p.text}: {f.message}"
  | f => f.message

end Finding

end MiniJava

import MiniJava.Ty

namespace MiniJava.Tac

inductive ValType where
  | int
  | bool
  | void
  | string
  | array (element : ValType)
  | cls (name : String)
deriving DecidableEq

namespace ValType

def ofName (name : String) : ValType :=
  if name = "int" then .int
  else if name = "boolean" then .bool
  else if name = "void" then .void
  else if name = "String" then .string
  else .cls name

def ofTy (t : Ty) : ValType := if t.isArray then .array (ofName t.name) else ofName t.name

def isReference : ValType → Bool
  | .string | .array _ | .cls _ => true
  | .int | .bool | .void => false

def element? : ValType → Option ValType
  | .array e => some e
  | _ => none

def text : ValType → String
  | .int => ".i32"
  | .bool => ".bool"
  | .void => ".V"
  | .string => ".String"
  | .array e => ".array" ++ e.text
  | .cls name => "." ++ name

end ValType

end MiniJava.Tac

namespace MiniJava

open Tac

/-- The type in generated code. A value whose own type cannot be told has the type that is wanted of
it, or `int`. -/
def Typing.valType (t : Typing) (hint : Option ValType) : ValType :=
  match t with
  | .known ty => .ofTy ty
  | .unknown | .foreign => hint.getD .int

end MiniJava

import MiniJava.Tac.Class

namespace MiniJava

namespace Jasmin

inductive JType where
  | int
  | boolean
  | void
  | object (path : String)
  | array (element : JType)
deriving DecidableEq

def JType.text : JType → String
  | .int => "I"
  | .boolean => "Z"
  | .void => "V"
  | .object path => s!"L{path};"
  | .array e => "[" ++ e.text

structure Descriptor where
  params : List JType
  ret : JType
deriving DecidableEq

def Descriptor.text (d : Descriptor) : String :=
  "(" ++ String.join (d.params.map JType.text) ++ ")" ++ d.ret.text

def stringPath : String := "java/lang/String"

end Jasmin

namespace Tac

open Jasmin

variable (c : Class)

def Class.jtype : ValType → JType
  | .int => .int
  | .bool => .boolean
  | .void => .void
  | .string => .object stringPath
  | .array e => .array (Class.jtype e)
  | .cls name => .object (c.classPath name)

def Class.descriptor (params : List ValType) (ret : ValType) : Descriptor :=
  ⟨params.map c.jtype, c.jtype ret⟩

def Class.methodDescriptor (m : Method) : Descriptor := c.descriptor (m.params.map (·.ty)) m.ret

end Tac

end MiniJava

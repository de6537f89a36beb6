namespace MiniJava

structure Ty where
  name : String
  isArray : Bool := false
deriving DecidableEq, Inhabited

namespace Ty

def int : Ty := ⟨"int", false⟩

def boolean : Ty := ⟨"boolean", false⟩

def void : Ty := ⟨"void", false⟩

def string : Ty := ⟨"String", false⟩

def object (name : String) : Ty := ⟨name, false⟩

def arrayOf (t : Ty) : Ty := ⟨t.name, true⟩

def element? (t : Ty) : Option Ty := if t.isArray then some ⟨t.name, false⟩ else none

/-- Whether the base is primitive, for arrays too. -/
def isPrimitive (t : Ty) : Bool := t.name == "int" || t.name == "boolean"

def isObject (t : Ty) : Bool := !t.isArray && !t.isPrimitive && t.name != "void"

def text (t : Ty) : String := if t.isArray then t.name ++ "[]" else t.name

end Ty

/-- What is known of an expression's type. `foreign` values come from classes that are not visible
here and pass every check; `unknown` ones were reported where they arose and pass too. -/
inductive Typing where
  | known (ty : Ty)
  | unknown
  | foreign
deriving DecidableEq

namespace Typing

def known? : Typing → Option Ty
  | .known t => some t
  | .unknown | .foreign => none

def violation (accepts : Ty → Bool) : Typing → Option Ty
  | .known t => if accepts t then none else some t
  | .unknown | .foreign => none

def text : Typing → String
  | .known t => t.text
  | .unknown => "<unknown>"
  | .foreign => "<foreign>"

end Typing

end MiniJava

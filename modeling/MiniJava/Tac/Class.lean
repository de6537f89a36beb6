import MiniJava.Symbols
import MiniJava.Tac.Slots
import MiniJava.Tac.Text

namespace MiniJava.Tac

structure Method where
  name : String
  isPublic : Bool
  isStatic : Bool
  isConstructor : Bool
  params : List Var
  ret : ValType
  code : List Instr
  slots : Slots

namespace Method

def constructor (cls : String) : Tac.Method where
  name := "<init>"
  isPublic := true
  isStatic := false
  isConstructor := true
  params := []
  ret := .void
  code := [.call ⟨.special (.this cls), .void⟩]
  slots := .start (some cls)

def labels (m : Method) : List (String × Nat) :=
  m.code.zipIdx.filterMap fun (i, n) ↦ i.label?.map (·, n)

def endsWithReturn (m : Method) : Bool := m.code.getLast?.any Instr.isReturn

def header (m : Method) (cls : String) : String :=
  if m.isConstructor then s!".construct {cls}().V"
  else
    let params := ", ".intercalate (m.params.map fun p ↦ p.name ++ p.ty.text)
    ".method " ++ (if m.isPublic then "public " else "") ++
      (if m.isStatic then "static " else "") ++ s!"{m.name}({params}){m.ret.text}"

end Method

structure Class where
  name : String
  superName : Option String
  imports : List Import
  fields : List Var
  methods : List Method

namespace Class

variable (c : Class)

def method? (name : String) : Option Method :=
  c.methods.find? fun m ↦ !m.isConstructor && m.name == name

def qualify (name : String) : String :=
  match c.imports.find? (·.name == name) with
  | some i => i.qualified "/"
  | none => name

/-- The class itself is never looked up among the imports. -/
def classPath (name : String) : String := if name = c.name then name else c.qualify name

def superPath : String := c.superName.elim "java/lang/Object" c.qualify

def methodLines (pad : String) (m : Method) : List String :=
  ["", pad ++ m.header c.name ++ " \x7b"] ++ m.code.map (fun i ↦ pad ++ pad ++ i.text) ++
    [pad ++ "\x7d"]

def lines (indent : Nat) : List String :=
  let pad := "".pushn ' ' indent
  c.imports.map (fun i ↦ "import " ++ i.qualified "." ++ ";") ++
    (if c.imports.isEmpty then [] else [""]) ++
    [c.name ++ c.superName.elim "" (" extends " ++ ·) ++ " \x7b"] ++
    c.fields.map (fun f ↦ s!"{pad}.field public {f.name}{f.ty.text};") ++
    c.methods.flatMap (c.methodLines pad) ++ ["\x7d"]

def text (indent : Nat) : String := String.join ((c.lines indent).map (· ++ "\n"))

end Class

end MiniJava.Tac

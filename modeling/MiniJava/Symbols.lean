import MiniJava.Tree.Program

namespace MiniJava

structure Symbol where
  name : String
  ty : Ty
deriving DecidableEq

structure Parameter where
  symbol : Symbol
  isVarargs : Bool
deriving DecidableEq

structure Signature where
  name : String
  ret : Ty
  params : List Parameter
  locals : List Symbol
  isPublic : Bool
  isStatic : Bool
deriving DecidableEq

namespace Signature

def paramIndex? (m : Signature) (name : String) : Option Nat :=
  m.params.findIdx? (·.symbol.name == name)

def param? (m : Signature) (name : String) : Option (Nat × Parameter) := do
  let i ← m.paramIndex? name
  return (i, ← m.params[i]?)

def local? (m : Signature) (name : String) : Option Symbol :=
  m.locals.find? (·.name == name)

def varargs? (m : Signature) : Option Parameter :=
  m.params.getLast?.filter (·.isVarargs)

def hasVarargs (m : Signature) : Bool := m.varargs?.isSome

def fixedCount (m : Signature) : Nat :=
  if m.hasVarargs then m.params.length - 1 else m.params.length

end Signature

structure Import where
  path : List String
deriving DecidableEq

namespace Import

def name (i : Import) : String := i.path.getLast?.getD ""

def qualified (i : Import) (sep : String) : String := sep.intercalate i.path

end Import

structure Symbols where
  className : String
  superName : Option String
  imports : List Import := []
  fields : List Symbol := []
  methods : List Signature := []

namespace Symbols

variable (t : Symbols)

def addImport (i : Import) : Symbols := { t with imports := t.imports ++ [i] }

def addField (f : Symbol) : Symbols := { t with fields := t.fields ++ [f] }

def addMethod (m : Signature) : Symbols := { t with methods := t.methods ++ [m] }

def import? (name : String) : Option Import := t.imports.find? (·.name == name)

def isImported (name : String) : Bool := (t.import? name).isSome

def isSuper (name : String) : Bool := t.superName == some name

def isClassName (name : String) : Bool :=
  name == t.className || t.isSuper name || t.isImported name

def field? (name : String) : Option Symbol := t.fields.find? (·.name == name)

/-- A later method hides earlier ones of the same name. -/
def method? (name : String) : Option Signature := t.methods.findRev? (·.name == name)

def returnTy? (method : String) : Option Ty := (t.method? method).map (·.ret)

def declaredNames : List String :=
  t.fields.map (·.name) ++
    t.methods.flatMap fun m ↦ m.params.map (·.symbol.name) ++ m.locals.map (·.name)

end Symbols

def VarDecl.symbol (d : VarDecl) : Symbol := ⟨d.name.name, d.ty.ty⟩

def ParamDecl.parameter (d : ParamDecl) : Parameter := ⟨⟨d.name.name, d.ty.ty⟩, d.ty.isVarargs⟩

def MethodDecl.signature (m : MethodDecl) : Signature where
  name := m.name.name
  ret := m.ret.ty
  params := m.params.map ParamDecl.parameter
  locals := m.locals.map VarDecl.symbol
  isPublic := m.isPublic
  isStatic := m.isStatic

def Program.symbols (p : Program) : Symbols where
  className := p.cls.name.name
  superName := p.cls.extends?.map (·.name)
  imports := p.imports.map Import.mk
  fields := p.cls.fields.map VarDecl.symbol
  methods := p.cls.methods.map MethodDecl.signature

end MiniJava

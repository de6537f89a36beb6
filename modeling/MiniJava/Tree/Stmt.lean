import MiniJava.Tree.Expr

namespace MiniJava

inductive TypeBase where
  | int
  | boolean
  | void
  | string
  | named (name : String)
deriving DecidableEq

/-- A type as written: `int`, `int[]`, `int...`, `Foo`. -/
structure TypeExpr where
  base : TypeBase
  isArray : Bool := false
  isVarargs : Bool := false
  pos : Position
deriving DecidableEq

def TypeBase.name : TypeBase → String
  | .int => "int"
  | .boolean => "boolean"
  | .void => "void"
  | .string => "String"
  | .named name => name

/-- A parameter that takes any number of arguments holds an array of them. -/
def TypeExpr.ty (t : TypeExpr) : Ty := ⟨t.base.name, t.isArray || t.isVarargs⟩

structure VarDecl where
  ty : TypeExpr
  name : Ident
  pos : Position
deriving DecidableEq

inductive Stmt where
  | var (decl : VarDecl)
  | block (body : List Stmt) (pos : Position)
  | ifThen (cond : Expr) (body : Stmt) (pos : Position)
  | ifElse (cond : Expr) (body other : Stmt) (pos : Position)
  | while (cond : Expr) (body : Stmt) (pos : Position)
  | expr (value : Expr) (pos : Position)
  | assign (target : Ident) (index : Option Expr) (value : Expr) (pos : Position)
  | return (value : Option Expr) (pos : Position)

namespace Stmt

def pos : Stmt → Position
  | .var decl => decl.pos
  | .block _ p | .ifThen _ _ p | .ifElse _ _ _ p | .while _ _ p | .expr _ p | .assign _ _ _ p
  | .return _ p => p

def isReturn : Stmt → Bool
  | .return .. => true
  | _ => false

mutual

def locals : Stmt → List VarDecl
  | .var decl => [decl]
  | .block body _ => localsAll body
  | .ifThen _ body _ | .while _ body _ => body.locals
  | .ifElse _ body other _ => body.locals ++ other.locals
  | .expr .. | .assign .. | .return .. => []

def localsAll : List Stmt → List VarDecl
  | [] => []
  | s :: rest => s.locals ++ localsAll rest

end

end Stmt

end MiniJava

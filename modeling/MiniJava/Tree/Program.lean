import MiniJava.Tree.Stmt

namespace MiniJava

structure ParamDecl where
  ty : TypeExpr
  name : Ident
  pos : Position
deriving DecidableEq

structure MethodDecl where
  isPublic : Bool
  isStatic : Bool
  ret : TypeExpr
  name : Ident
  params : List ParamDecl
  body : List Stmt
  pos : Position

def MethodDecl.locals (m : MethodDecl) : List VarDecl := Stmt.localsAll m.body

structure ClassDecl where
  name : Ident
  extends? : Option Ident
  fields : List VarDecl
  methods : List MethodDecl
  pos : Position

/-- Imports, each as the segments of its path, followed by one class. -/
structure Program where
  imports : List (List String)
  cls : ClassDecl

end MiniJava

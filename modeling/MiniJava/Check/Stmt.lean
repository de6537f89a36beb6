import MiniJava.Check.Expr

namespace MiniJava.Scope

variable (s : Scope)

def checkCondition (cond : Expr) : List Finding :=
  s.check cond ++ s.refuse (· == .boolean) .conditionNotBoolean cond cond.pos

def checkStore (target : Ident) (indexed : Bool) (ty : Ty) (value : Expr) (pos : Position) :
    List Finding :=
  let store (t : Ty) := s.refuse (s.assignable t) (.unassignable t.text) value pos
  if indexed then
    match ty.element? with
    | some element => store element
    | none => [.located (.notAnArray ty.text) target.pos]
  else store ty

/-- Classes and inherited members accept every value. -/
def checkTarget (target : Ident) (indexed : Bool) (value : Expr) (pos : Position) :
    List Finding :=
  match s.binding target.name with
  | .param _ p => s.checkStore target indexed p.symbol.ty value pos
  | .local v | .field v => s.checkStore target indexed v.ty value pos
  | .undeclared => [.located (.undeclaredVariable target.name) target.pos]
  | .cls | .inherited => []

def checkReturn (value : Option Expr) (pos : Position) : List Finding :=
  match s.method with
  | none => []
  | some m =>
    match value with
    | none =>
      if m.ret = .void then [] else [.located (.returnType m.name m.ret.text Ty.void.text) pos]
    | some e =>
      s.check e ++
        if m.ret = .void then [.located (.returnInVoid m.name) pos]
        else s.refuse (s.assignable m.ret) (.returnType m.name m.ret.text) e pos

mutual

def checkStmt : Stmt → List Finding
  | .var _ => []
  | .block body _ => checkStmts body
  | .ifThen cond body _ | .while cond body _ => s.checkCondition cond ++ checkStmt body
  | .ifElse cond body other _ => s.checkCondition cond ++ checkStmt body ++ checkStmt other
  | .expr e _ => s.check e
  | .assign target index value pos =>
    s.check value ++ (index.elim [] fun i ↦ s.check i ++ s.checkIndex i) ++
      s.checkTarget target index.isSome value pos
  | .return value pos => s.checkReturn value pos

def checkStmts : List Stmt → List Finding
  | [] => []
  | stmt :: rest => checkStmt stmt ++ checkStmts rest

end

end MiniJava.Scope

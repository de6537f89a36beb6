import MiniJava.Lower.Expr
import MiniJava.Tree.Stmt

namespace MiniJava.Scope

open Tac Lower

variable (s : Scope)

def lowerCond (cond : Expr) : Lower Cond :=
  match cond.unparen with
  | .binary .less left right _ => do
    let l ← s.lower left (some .int)
    let r ← s.lower right (some .int)
    return .less l r
  | _ => do return .value (← s.lower cond (some .bool))

/-- The value of a statement that is an expression is dropped; a call need not have one. -/
def lowerEffect (e : Expr) : Lower Unit :=
  match e.unparen with
  | .call recv method args _ => do emit (.call (← s.lowerCall recv method args (some .void)))
  | inner => do let _ ← s.lower inner none

def storeElement (array : Operand) (index value : Expr) : Lower Unit := do
  let element := array.ty.element?.getD .int
  let i ← s.lower index (some .int)
  let v ← s.lower value (some element)
  emit (.assign (.elem array i element) element (.value v))

def assignVar (dest : Operand) (index : Option Expr) (value : Expr) : Lower Unit :=
  match index with
  | some i => s.storeElement dest i value
  | none => do
    let v ← s.lower value (some dest.ty)
    emit (.assign dest dest.ty (.value v))

def assignField (name : String) (ty : ValType) (index : Option Expr) (value : Expr) :
    Lower Unit :=
  match index with
  | some i => do
    let array ← s.readField name ty
    s.storeElement array i value
  | none => do
    let v ← s.lower value (some ty)
    emit (.putField name ty v)

def lowerAssign (target : Ident) (index : Option Expr) (value : Expr) : Lower Unit :=
  match s.binding target.name with
  | .param i p => s.assignVar (.param i target.name (.ofTy p.symbol.ty)) index value
  | .local v => s.assignVar (.var target.name (.ofTy v.ty)) index value
  | .field f => s.assignField target.name (.ofTy f.ty) index value
  | .inherited =>
    let ty := s.valType value none
    s.assignField target.name (if index.isSome then .array ty else ty) index value
  | .cls | .undeclared => unsupported s!"assignment to '{target.name}'" target.pos

def lowerReturn (value : Option Expr) : Lower Unit := do
  let ty := s.method.elim ValType.void fun m ↦ .ofTy m.ret
  match value with
  | none => emit (.return ty none)
  | some e => emit (.return ty (some (← s.lower e (some ty))))

def lowerIf (cond : Expr) (body other : Lower Unit) : Lower Unit := do
  let id ← freshLabel
  let c ← s.lowerCond cond
  emit (.branch c s!"if{id}")
  emit (.goto s!"else{id}")
  emit (.label s!"if{id}")
  body
  emit (.goto s!"endif{id}")
  emit (.label s!"else{id}")
  other
  emit (.label s!"endif{id}")

/-- The condition is lowered twice: before the first round and after each. -/
def lowerWhile (cond : Expr) (body : Lower Unit) : Lower Unit := do
  let id ← freshLabel
  let c ← s.lowerCond cond
  emit (.branch c s!"whilebody_{id}")
  emit (.goto s!"endwhile_{id}")
  emit (.label s!"whilebody_{id}")
  body
  let again ← s.lowerCond cond
  emit (.branch again s!"whilebody_{id}")
  emit (.label s!"endwhile_{id}")

mutual

def lowerStmt : Stmt → Lower Unit
  | .var _ => return
  | .block body _ => lowerStmts body
  | .ifThen cond body _ => s.lowerIf cond (lowerStmt body) (return)
  | .ifElse cond body other _ => s.lowerIf cond (lowerStmt body) (lowerStmt other)
  | .while cond body _ => s.lowerWhile cond (lowerStmt body)
  | .expr e _ => s.lowerEffect e
  | .assign target index value _ => s.lowerAssign target index value
  | .return value _ => s.lowerReturn value

def lowerStmts : List Stmt → Lower Unit
  | [] => return
  | stmt :: rest => do
    lowerStmt stmt
    lowerStmts rest

end

end MiniJava.Scope

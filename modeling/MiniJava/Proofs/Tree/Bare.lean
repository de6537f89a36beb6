import Mathlib.Logic.Basic
import MiniJava.Symbols

namespace MiniJava

namespace Expr

mutual

def bare : Expr → Expr
  | .int v pos => .int v pos
  | .bool v pos => .bool v pos
  | .ident id => .ident id
  | .this pos => .this pos
  | .binary op left right pos => .binary op left.bare right.bare pos
  | .not e pos => .not e.bare pos
  | .paren e _ => e.bare
  | .index base idx pos => .index base.bare idx.bare pos
  | .length base pos => .length base.bare pos
  | .call recv method args pos => .call recv.bare method (bareAll args) pos
  | .newObject cls pos => .newObject cls pos
  | .newArray size pos => .newArray size.bare pos
  | .array elems pos => .array (bareAll elems) pos

def bareAll : List Expr → List Expr
  | [] => []
  | e :: es => e.bare :: bareAll es

end

theorem bareAll_eq_map (es : List Expr) : bareAll es = es.map bare := by
  induction es with
  | nil => rfl
  | cons e es ih => rw [bareAll, ih, List.map_cons]

end Expr

namespace Stmt

mutual

def bare : Stmt → Stmt
  | .var decl => .var decl
  | .block body pos => .block (bareAll body) pos
  | .ifThen cond body pos => .ifThen cond.bare body.bare pos
  | .ifElse cond body other pos => .ifElse cond.bare body.bare other.bare pos
  | .while cond body pos => .while cond.bare body.bare pos
  | .expr e pos => .expr e.bare pos
  | .assign target index value pos => .assign target (index.map Expr.bare) value.bare pos
  | .return value pos => .return (value.map Expr.bare) pos

def bareAll : List Stmt → List Stmt
  | [] => []
  | stmt :: rest => stmt.bare :: bareAll rest

end

theorem bareAll_eq_map (stmts : List Stmt) : bareAll stmts = stmts.map bare := by
  induction stmts with
  | nil => rfl
  | cons stmt rest ih => rw [bareAll, ih, List.map_cons]

@[simp] theorem isReturn_bare (stmt : Stmt) : stmt.bare.isReturn = stmt.isReturn := by
  cases stmt <;> rfl

mutual

theorem locals_bare : ∀ stmt : Stmt, stmt.bare.locals = stmt.locals
  | .var _ | .expr .. | .assign .. | .return .. => rfl
  | .block body _ => localsAll_bareAll body
  | .ifThen _ body _ | .while _ body _ => locals_bare body
  | .ifElse _ body other _ => congrArg₂ _ (locals_bare body) (locals_bare other)

theorem localsAll_bareAll : ∀ stmts : List Stmt, localsAll (bareAll stmts) = localsAll stmts
  | [] => rfl
  | stmt :: rest => congrArg₂ _ (locals_bare stmt) (localsAll_bareAll rest)

end

end Stmt

def MethodDecl.bare (m : MethodDecl) : MethodDecl := { m with body := Stmt.bareAll m.body }

def Program.bare (p : Program) : Program :=
  { p with cls := { p.cls with methods := p.cls.methods.map MethodDecl.bare } }

@[simp] theorem MethodDecl.signature_bare (m : MethodDecl) : m.bare.signature = m.signature := by
  simp [signature, bare, locals, Stmt.localsAll_bareAll]

/-- What is declared does not depend on parentheses. -/
@[simp] theorem Program.symbols_bare (p : Program) : p.bare.symbols = p.symbols := by
  simp [symbols, bare, Function.comp_def]

end MiniJava

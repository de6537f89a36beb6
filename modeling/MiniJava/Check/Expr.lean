import MiniJava.Finding
import MiniJava.Scope

namespace MiniJava.Scope

variable (s : Scope)

/-- A fault at `pos` when the type of `e` is known and refused. -/
def refuse (accepts : Ty → Bool) (fault : String → Fault) (e : Expr) (pos : Position) :
    List Finding :=
  match (s.typing e).violation accepts with
  | some ty => [.located (fault ty.text) pos]
  | none => []

def checkIdent (id : Ident) : List Finding :=
  if s.binding id.name = .undeclared then [.located (.undeclaredVariable id.name) id.pos] else []

def checkOperand (op : BinOp) (e : Expr) : List Finding :=
  s.refuse (· == op.operandTy) (.operandType op.symbol op.operandTy.text) e e.pos

def checkBase (e : Expr) : List Finding := s.refuse Ty.isArray .notAnArray e e.pos

def checkIndex (e : Expr) : List Finding := s.refuse (· == .int) .indexNotInt e e.pos

def checkArgument (m : Signature) (index : Nat) (expected : Ty) (arg : Expr) : List Finding :=
  s.refuse (s.assignable expected) (.argumentType m.name index expected.text) arg arg.pos

/-- The arguments past the fixed ones are either one array or any number of its elements. -/
def checkTail (m : Signature) (varargs : Parameter) (tail : List Expr) : List Finding :=
  if tail.map (s.typing ·) = [.known varargs.symbol.ty] then []
  else
    match varargs.symbol.ty.element? with
    | some element =>
      (tail.zipIdx m.fixedCount).flatMap fun (arg, i) ↦ s.checkArgument m i element arg
    | none => []

def checkArguments (m : Signature) (args : List Expr) (pos : Position) : List Finding :=
  if args.length < m.fixedCount || (!m.hasVarargs && m.fixedCount < args.length) then
    [.located (.argumentCount m.name m.fixedCount args.length) pos]
  else
    let fixed := ((m.params.take m.fixedCount).zip args).zipIdx
    (fixed.flatMap fun ((p, arg), i) ↦ s.checkArgument m i p.symbol.ty arg) ++
      match m.varargs? with
      | some varargs => s.checkTail m varargs (args.drop m.fixedCount)
      | none => []

/-- What the receiver of an unresolved call is called; none if the receiver is itself unresolved. -/
def receiverText? (recv : Expr) : Option String :=
  match s.className? recv with
  | some cls => some cls
  | none => (s.typing recv).known?.map Ty.text

def checkCall (recv : Expr) (method : Ident) (args : List Expr) (pos : Position) : List Finding :=
  if s.callTyping recv method.name = .unknown then
    match s.receiverText? recv with
    | some receiver => [.located (.unresolvedCall receiver method.name) pos]
    | none => []
  else
    match s.target? recv method.name with
    | some m => s.checkArguments m args pos
    | none => []

def checkElement (first : Option Ty) (e : Expr) : List Finding :=
  match first with
  | some ty => s.refuse (· == ty) (.mixedElements ty.text) e e.pos
  | none => []

mutual

/-- The findings of an expression, those of its parts first. -/
def check : Expr → List Finding
  | .int .. | .bool .. | .this _ => []
  | .ident id => s.checkIdent id
  | .binary op left right _ =>
    check left ++ check right ++ s.checkOperand op left ++ s.checkOperand op right
  | .not e pos =>
    check e ++ s.refuse (· == .boolean) (.operandType "!" Ty.boolean.text) e pos
  | .paren e _ => check e
  | .index base idx _ => check base ++ check idx ++ s.checkBase base ++ s.checkIndex idx
  | .length base _ => check base ++ s.checkBase base
  | .call recv method args pos =>
    (if (s.className? recv).isSome then [] else check recv) ++ checkAll args ++
      s.checkCall recv method args pos
  | .newObject cls _ =>
    if s.symbols.isClassName cls.name then [] else [.located (.unknownClass cls.name) cls.pos]
  | .newArray size _ => check size ++ s.checkIndex size
  | .array elems _ => checkElements none elems

def checkAll : List Expr → List Finding
  | [] => []
  | e :: es => check e ++ checkAll es

/-- All elements of known type have the first such type. -/
def checkElements (first : Option Ty) : List Expr → List Finding
  | [] => []
  | e :: es =>
    check e ++ s.checkElement first e ++ checkElements (first <|> (s.typing e).known?) es

end

end MiniJava.Scope

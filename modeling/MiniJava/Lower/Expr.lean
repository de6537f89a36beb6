import MiniJava.Lower.Basic
import MiniJava.Scope

namespace MiniJava.Scope

open Tac Lower

variable (s : Scope)

def freshTemp (ty : ValType) : Lower Operand := do
  return .var (← freshName s.symbols.declaredNames "tmp") ty

def toTemp (ty : ValType) (rhs : Rhs) : Lower Operand := do
  let t ← s.freshTemp ty
  emit (.assign t ty rhs)
  return t

def readField (name : String) (ty : ValType) : Lower Operand := s.toTemp ty (.field name ty)

def valType (e : Expr) (hint : Option ValType) : ValType := (s.typing e).valType hint

def lowerIdent (id : Ident) (hint : Option ValType) : Lower Operand :=
  match s.binding id.name with
  | .param i p => return .param i id.name (.ofTy p.symbol.ty)
  | .local v => return .var id.name (.ofTy v.ty)
  | .field f => s.readField id.name (.ofTy f.ty)
  | .inherited => s.readField id.name (hint.getD .int)
  | .cls => return .cls id.name
  | .undeclared => do
    unsupported s!"undeclared variable '{id.name}'" id.pos
    return .var id.name (hint.getD .int)

def allocate (ty : ValType) (len : Nat) : Lower Operand :=
  s.toTemp ty (.call ⟨.newArray (.int (Int32.ofNat len)), ty⟩)

def lowerAnd (left right : Lower Operand) : Lower Operand := do
  let l ← left
  let id ← freshLabel
  let result ← s.freshTemp .bool
  emit (.branch (.value l) s!"true_{id}")
  emit (.assign result .bool (.value (.bool false)))
  emit (.goto s!"end_{id}")
  emit (.label s!"true_{id}")
  let r ← right
  emit (.assign result .bool (.value r))
  emit (.label s!"end_{id}")
  return result

def lowerNewObject (cls : Ident) (pos : Position) : Lower Operand := do
  unless s.symbols.isClassName cls.name do
    unsupported s!"instantiation of unknown class '{cls.name}'" pos
  let ty := ValType.cls cls.name
  let object ← s.toTemp ty (.call ⟨.new cls.name, ty⟩)
  emit (.call ⟨.special object, .void⟩)
  return object

def lowerInOrder : List ValType → List (Option ValType → Lower Operand) → Lower (List Operand)
  | _, [] => return []
  | hints, e :: es => do
    let v ← e hints.head?
    let vs ← lowerInOrder hints.tail es
    return v :: vs

def storeFrom (array : Operand) (element : ValType) :
    Nat → List (Option ValType → Lower Operand) → Lower Unit
  | _, [] => return
  | i, e :: es => do
    let v ← e (some element)
    emit (.assign (.elem array (.int (Int32.ofNat i)) element) element (.value v))
    storeFrom array element (i + 1) es

def pack (ty : ValType) (tail : List (Option ValType → Lower Operand)) : Lower Operand := do
  let allocated ← s.allocate ty tail.length
  let packed := Operand.var (← freshName s.symbols.declaredNames "__varargs_array_") ty
  emit (.assign packed ty (.value allocated))
  storeFrom packed (ty.element?.getD .int) 0 tail
  return packed

/-- The parameter that the last arguments are gathered for. A single last argument that may be an
array is passed on as it is. -/
def packed? (m : Signature) (args : List Expr) : Option Parameter :=
  m.varargs?.filter fun _ ↦
    args.length != m.params.length ||
      args.getLast?.any fun e ↦ (s.typing e).known?.any fun ty ↦ !ty.isArray

def lowerArgs (target : Option Signature) (args : List Expr)
    (lowered : List (Option ValType → Lower Operand)) : Lower (List Operand) := do
  let params := target.elim [] (·.params)
  let hints := params.map fun p ↦ ValType.ofTy p.symbol.ty
  match target.bind (s.packed? · args) with
  | none => lowerInOrder hints lowered
  | some varargs =>
    let fixed := params.length - 1
    let vs ← lowerInOrder hints (lowered.take fixed)
    let v ← s.pack (.ofTy varargs.symbol.ty) (lowered.drop fixed)
    return vs ++ [v]

/-- A call, given how to lower its receiver and its arguments. One on a class name has no receiver
value. -/
def lowerCallWith (recv : Expr) (method : Ident) (args : List Expr) (hint : Option ValType)
    (loweredRecv : Lower Operand) (loweredArgs : List (Option ValType → Lower Operand)) :
    Lower Call := do
  let ret := (s.callTyping recv method.name).valType hint
  let target := s.target? recv method.name
  match s.className? recv with
  | some cls => return ⟨.static cls method.name (← s.lowerArgs target args loweredArgs), ret⟩
  | none =>
    let r ← loweredRecv
    return ⟨.virtual r method.name (← s.lowerArgs target args loweredArgs), ret⟩

def literalElement (elems : List Expr) : ValType :=
  match elems with
  | [] => .int
  | e :: _ => s.valType e none

mutual

def lower : Expr → Option ValType → Lower Operand
  | .int v _, _ => return .int v
  | .bool v _, _ => return .bool v
  | .ident id, hint => s.lowerIdent id hint
  | .this _, _ => return .this s.symbols.className
  | .binary (.arith op) left right _, _ => do
    let l ← lower left (some .int)
    let r ← lower right (some .int)
    s.toTemp .int (.arith op l r)
  | .binary .less left right _, _ => do
    let l ← lower left (some .int)
    let r ← lower right (some .int)
    s.toTemp .bool (.less l r)
  | .binary .and left right _, _ =>
    s.lowerAnd (lower left (some .bool)) (lower right (some .bool))
  | .not e _, _ => do
    let v ← lower e (some .bool)
    s.toTemp .bool (.not v)
  | .paren e _, hint => lower e hint
  | .index base idx _, hint => do
    let array ← lower base none
    let i ← lower idx (some .int)
    let ty := array.ty.element?.getD (hint.getD .int)
    s.toTemp ty (.value (.elem array i ty))
  | .length base _, _ => do
    let array ← lower base none
    s.toTemp .int (.call ⟨.length array, .int⟩)
  | .call recv method args _, hint => do
    let c ← s.lowerCallWith recv method args hint (lower recv none) (lowerEach args)
    s.toTemp c.ret (.call c)
  | .newObject cls pos, _ => s.lowerNewObject cls pos
  | .newArray size _, _ => do
    let n ← lower size (some .int)
    s.toTemp (.array .int) (.call ⟨.newArray n, .array .int⟩)
  | .array elems _, _ => do
    let element := s.literalElement elems
    let array ← s.allocate (.array element) elems.length
    storeFrom array element 0 (lowerEach elems)
    return array

def lowerEach : List Expr → List (Option ValType → Lower Operand)
  | [] => []
  | e :: es => lower e :: lowerEach es

end

def lowerCall (recv : Expr) (method : Ident) (args : List Expr) (hint : Option ValType) :
    Lower Call :=
  s.lowerCallWith recv method args hint (s.lower recv none) (s.lowerEach args)

end MiniJava.Scope

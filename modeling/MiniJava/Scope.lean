import MiniJava.Symbols

namespace MiniJava

structure Scope where
  symbols : Symbols
  method : Option Signature

inductive Binding where
  | param (index : Nat) (param : Parameter)
  | local (symbol : Symbol)
  | field (symbol : Symbol)
  /-- The class itself, its superclass or an imported class. -/
  | cls
  /-- Declared nowhere here, in a class that extends another. -/
  | inherited
  | undeclared
deriving DecidableEq

namespace Scope

variable (s : Scope)

def methodBinding? (name : String) : Option Binding :=
  s.method.bind fun m ↦
    match m.param? name with
    | some (i, p) => some (.param i p)
    | none => (m.local? name).map .local

/-- Parameters hide locals, which hide fields, which hide classes. -/
def binding (name : String) : Binding :=
  match s.methodBinding? name with
  | some b => b
  | none =>
    match s.symbols.field? name with
    | some f => .field f
    | none =>
      if s.symbols.isClassName name then .cls
      else if s.symbols.superName.isSome then .inherited
      else .undeclared

/-- The class that an expression names, rather than a value. -/
def className? (e : Expr) : Option String :=
  match e.unparen with
  | .ident id => if s.binding id.name = .cls then some id.name else none
  | _ => none

def methodTyping (cls method : String) : Typing :=
  if cls = s.symbols.className then
    match s.symbols.returnTy? method with
    | some ty => .known ty
    | none => if s.symbols.superName.isSome then .foreign else .unknown
  else if s.symbols.isSuper cls then
    match s.symbols.returnTy? method with
    | some ty => .known ty
    | none => .foreign
  else if s.symbols.isImported cls then .foreign
  else .unknown

def identTyping (name : String) : Typing :=
  match s.binding name with
  | .param _ p => .known p.symbol.ty
  | .local v | .field v => .known v.ty
  | .cls => .known (.object name)
  | .inherited => .foreign
  | .undeclared => .unknown

/-- The class a call is made on, or the typing that a call without one has. -/
def dispatch (named : Option String) (recv : Typing) : Except Typing String :=
  match named, recv with
  | some cls, _ => .ok cls
  | none, .known ty => if ty.isObject then .ok ty.name else .error .unknown
  | none, t => .error t

def typing : Expr → Typing
  | .int .. | .length .. => .known .int
  | .bool .. | .not .. => .known .boolean
  | .ident id => s.identTyping id.name
  | .this _ => .known (.object s.symbols.className)
  | .binary op _ _ _ => .known op.resultTy
  | .paren e _ => typing e
  | .index base _ _ =>
    match typing base with
    | .known ty => ty.element?.elim .unknown .known
    | t => t
  | .call recv m _ _ =>
    match dispatch (s.className? recv) (typing recv) with
    | .ok cls => s.methodTyping cls m.name
    | .error t => t
  | .newObject cls _ => .known (.object cls.name)
  | .newArray .. | .array [] _ => .known (Ty.arrayOf .int)
  | .array (e :: _) _ =>
    match typing e with
    | .known ty => if ty.isArray then .unknown else .known ty.arrayOf
    | t => t
termination_by structural e => e

def receiverClass (recv : Expr) : Except Typing String :=
  dispatch (s.className? recv) (s.typing recv)

def callTyping (recv : Expr) (method : String) : Typing :=
  match s.receiverClass recv with
  | .ok cls => s.methodTyping cls method
  | .error t => t

def target? (recv : Expr) (method : String) : Option Signature :=
  match s.receiverClass recv with
  | .ok cls => if cls = s.symbols.className then s.symbols.method? method else none
  | .error _ => none

/-- A value may be stored where a target of its own type is, of its superclass if the value is of
the class itself, or of an imported class if the value's class is imported too. -/
def assignable (target value : Ty) : Bool :=
  target == value ||
    (target.isObject && value.isObject &&
      ((value.name == s.symbols.className && s.symbols.isSuper target.name) ||
        (s.symbols.isImported target.name && s.symbols.isImported value.name)))

end Scope

end MiniJava

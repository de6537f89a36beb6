import MiniJava.Operator
import MiniJava.Position

namespace MiniJava

structure Ident where
  name : String
  pos : Position
deriving DecidableEq

inductive Expr where
  | int (value : Int32) (pos : Position)
  | bool (value : Bool) (pos : Position)
  | ident (id : Ident)
  | this (pos : Position)
  | binary (op : BinOp) (left right : Expr) (pos : Position)
  | not (operand : Expr) (pos : Position)
  | paren (inner : Expr) (pos : Position)
  | index (base idx : Expr) (pos : Position)
  | length (base : Expr) (pos : Position)
  | call (recv : Expr) (method : Ident) (args : List Expr) (pos : Position)
  | newObject (cls : Ident) (pos : Position)
  | newArray (size : Expr) (pos : Position)
  | array (elems : List Expr) (pos : Position)

namespace Expr

def pos : Expr → Position
  | .int _ p | .bool _ p | .this p | .binary _ _ _ p | .not _ p | .paren _ p | .index _ _ p
  | .length _ p | .call _ _ _ p | .newObject _ p | .newArray _ p | .array _ p => p
  | .ident id => id.pos

def unparen : Expr → Expr
  | .paren e _ => e.unparen
  | e => e

def describe : Expr → String
  | .int .. | .bool .. => "literal"
  | .ident _ => "identifier"
  | .this _ => "this"
  | .binary .. => "binary expression"
  | .not .. => "negation"
  | .paren .. => "parenthesized expression"
  | .index .. => "array access"
  | .length .. => "length query"
  | .call .. => "method call"
  | .newObject .. => "object instantiation"
  | .newArray .. => "array allocation"
  | .array .. => "array literal"

end Expr

end MiniJava

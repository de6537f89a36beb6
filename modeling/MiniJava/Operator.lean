import MiniJava.Ty

namespace MiniJava

inductive Arith where
  | add
  | sub
  | mul
  | div
deriving DecidableEq

def Arith.symbol : Arith → String
  | .add => "+"
  | .sub => "-"
  | .mul => "*"
  | .div => "/"

inductive BinOp where
  | arith (op : Arith)
  | less
  | and
deriving DecidableEq

namespace BinOp

def symbol : BinOp → String
  | .arith op => op.symbol
  | .less => "<"
  | .and => "&&"

def operandTy : BinOp → Ty
  | .arith _ | .less => .int
  | .and => .boolean

def resultTy : BinOp → Ty
  | .arith _ => .int
  | .less | .and => .boolean

end BinOp

end MiniJava

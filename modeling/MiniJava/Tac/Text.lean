import MiniJava.Tac.Instr

namespace MiniJava.Tac

/-- Variables in front of an index leave out their type. -/
def Operand.spell (indexed : Bool) : Operand → String
  | .lit v t => s!"{v.toInt}{t.text}"
  | .var name t => if indexed then name else name ++ t.text
  | .param index name t =>
    let base := s!"${index + 1}.{name}"
    if indexed then base else base ++ t.text
  | .elem array index t => s!"{array.spell true}[{index.spell false}]{t.text}"
  | .this c => "this." ++ c
  | .cls c => c

def Operand.text (x : Operand) : String := x.spell false

def argsText (args : List Operand) : String := String.join (args.map (", " ++ ·.text))

def CallKind.text : CallKind → String
  | .static cls method args => s!"invokestatic({cls}, \"{method}\"{argsText args})"
  | .virtual recv method args => s!"invokevirtual({recv.text}, \"{method}\"{argsText args})"
  | .special (.this _) => "invokespecial(this, \"<init>\")"
  | .special recv => s!"invokespecial({recv.text}, \"<init>\")"
  | .new cls => s!"new({cls})"
  | .newArray size => s!"new(array, {size.text})"
  | .length array => s!"arraylength({array.text})"

def Call.text (c : Call) : String := c.kind.text ++ c.ret.text

def Rhs.text : Rhs → String
  | .value x => x.text
  | .arith op l r => s!"{l.text} {op.symbol}.i32 {r.text}"
  | .less l r => s!"{l.text} <.bool {r.text}"
  | .not x => "!.bool " ++ x.text
  | .field name t => s!"getfield(this, {name}{t.text}){t.text}"
  | .call c => c.text

def Cond.text : Cond → String
  | .value x => x.text
  | .less l r => s!"{l.text} <.bool {r.text}"

def Instr.text : Instr → String
  | .assign dest t rhs => s!"{dest.text} :={t.text} {rhs.text};"
  | .putField name t x => s!"putfield(this, {name}{t.text}, {x.text}).V;"
  | .call c => c.text ++ ";"
  | .branch c l => s!"if ({c.text}) goto {l};"
  | .goto l => s!"goto {l};"
  | .label name => name ++ ":"
  | .return t (some x) => s!"ret{t.text} {x.text};"
  | .return t none => s!"ret{t.text};"
  | .invalid reason => s!"ERROR(\"{reason}\");"

end MiniJava.Tac

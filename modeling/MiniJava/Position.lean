namespace MiniJava

/-- A place in the source text, with the length of the token there. Lines and columns count from 1;
line 0 marks a node that was not read from any text. -/
structure Position where
  line : UInt32
  col : UInt32
  width : UInt32 := 0
deriving DecidableEq, Inhabited

namespace Position

def synthetic : Position := ⟨0, 0, 0⟩

def point (line col : UInt32) : Position := ⟨line, col, 0⟩

def isSynthetic (p : Position) : Bool := p.line == 0

/-- Reports hold signed 32-bit coordinates, so large ones wrap around. -/
def reportLine (p : Position) : Int :=
  if p.isSynthetic then -1 else p.line.toInt32.toInt

def reportCol (p : Position) : Int :=
  if p.isSynthetic then -1 else p.col.toInt32.toInt

def text (p : Position) : String := s!"{p.reportLine}:{p.reportCol}"

end Position

end MiniJava

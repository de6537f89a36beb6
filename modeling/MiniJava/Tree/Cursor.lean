import MiniJava.Tree.Expr

namespace MiniJava

structure Cursor where
  pos : Position
deriving DecidableEq

namespace Cursor

def start : Cursor := ⟨⟨1, 1, 1⟩⟩

def moveTo (_ : Cursor) (line col : UInt32) : Cursor := ⟨⟨line, col, 1⟩⟩

def name (c : Cursor) (s : String) : Ident := ⟨s, c.pos⟩

end Cursor

end MiniJava

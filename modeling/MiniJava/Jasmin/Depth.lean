namespace MiniJava.Jasmin

/-- A line of a method body; an operation counts with its effect on the operand stack. -/
inductive Line (α : Type) where
  | op (code : α) (delta : Int)
  | label (name : String)
  | comment (text : String)
deriving DecidableEq

namespace Line

variable {α : Type}

def delta : Line α → Int
  | .op _ d => d
  | .label _ | .comment _ => 0

def text (spell : α → String) : Line α → String
  | .op code _ => spell code
  | .label name => name ++ ":"
  | .comment text => "; " ++ text

end Line

structure Depth where
  depth : Int := 0
  max : Int := 0
deriving DecidableEq

namespace Depth

variable {α : Type}

/-- A line that takes more than there is has no effect. -/
def step? (d : Depth) (l : Line α) : Option Depth :=
  let depth := d.depth + l.delta
  if depth < 0 then none else some ⟨depth, Max.max d.max depth⟩

theorem step?_eq_some {d d' : Depth} {l : Line α} :
    d.step? l = some d' ↔
      0 ≤ d.depth + l.delta ∧ d' = ⟨d.depth + l.delta, Max.max d.max (d.depth + l.delta)⟩ := by
  simp only [step?]
  split
  · simp; omega
  · simp [eq_comm]; omega

theorem step?_eq_none {d : Depth} {l : Line α} : d.step? l = none ↔ d.depth + l.delta < 0 := by
  simp [step?]

def applyAll (d : Depth) : List (Line α) → Depth × Bool
  | [] => (d, true)
  | l :: ls =>
    match d.step? l with
    | some d' => d'.applyAll ls
    | none => (d, false)

end Depth

end MiniJava.Jasmin

import MiniJava.Finding
import MiniJava.Tac.Instr

namespace MiniJava

open Tac

structure Numbering where
  temp : Nat := 0
  label : Nat := 0
deriving DecidableEq

/-- A result together with the code that computes it and the constructs it could not express. -/
structure Lowered (α : Type) where
  value : α
  code : List Instr
  findings : List Finding
  next : Numbering

/-- A step of code generation. A sequence of steps appends their code, passing the numbering on. -/
def Lower (α : Type) : Type := Numbering → Lowered α

namespace Lower

variable {α β : Type}

protected def pure (a : α) : Lower α := fun n ↦ ⟨a, [], [], n⟩

protected def bind (x : Lower α) (f : α → Lower β) : Lower β := fun n ↦
  let a := x n
  let b := f a.value a.next
  ⟨b.value, a.code ++ b.code, a.findings ++ b.findings, b.next⟩

instance : Monad Lower where
  pure := Lower.pure
  bind := Lower.bind

section

variable (x : Lower α) (f : α → Lower β) (a : α) (n : Numbering)

@[simp] theorem pure_apply : (pure a : Lower α) n = ⟨a, [], [], n⟩ := rfl

@[simp] theorem value_bind : ((x >>= f) n).value = (f (x n).value (x n).next).value := rfl

@[simp] theorem code_bind :
    ((x >>= f) n).code = (x n).code ++ (f (x n).value (x n).next).code := rfl

@[simp] theorem findings_bind :
    ((x >>= f) n).findings = (x n).findings ++ (f (x n).value (x n).next).findings := rfl

@[simp] theorem next_bind : ((x >>= f) n).next = (f (x n).value (x n).next).next := rfl

end

instance : LawfulMonad Lower := LawfulMonad.mk' Lower
  (fun x ↦ by funext n; simp [Functor.map, Lower.bind, Lower.pure])
  (fun a f ↦ by funext n; simp [bind, Lower.bind, pure, Lower.pure])
  (fun x f g ↦ by funext n; simp [bind, Lower.bind])

def emit (i : Instr) : Lower Unit := fun n ↦ ⟨(), [i], [], n⟩

def unsupported (what : String) (pos : Position) : Lower Unit := fun n ↦
  ⟨(), [.invalid what], [.located (.unsupported what) pos], n⟩

@[simp] theorem emit_apply (i : Instr) (n : Numbering) : emit i n = ⟨(), [i], [], n⟩ := rfl

@[simp] theorem unsupported_apply (what : String) (pos : Position) (n : Numbering) :
    unsupported what pos n = ⟨(), [.invalid what], [.located (.unsupported what) pos], n⟩ := rfl

def numbered (stem : String) (n : Nat) : String := stem ++ toString n

/-- The first number from `n` on that does not make a taken name. One of any `taken.length + 1`
numbers is free. -/
def freshNumber (taken : List String) (stem : String) (n : Nat) : Nat :=
  ((List.range' n (taken.length + 1)).find? fun k ↦ !taken.contains (numbered stem k)).getD n

def freshName (taken : List String) (stem : String) : Lower String := fun n ↦
  let k := freshNumber taken stem n.temp
  ⟨numbered stem k, [], [], { n with temp := k + 1 }⟩

def freshLabel : Lower Nat := fun n ↦ ⟨n.label, [], [], { n with label := n.label + 1 }⟩

end Lower

end MiniJava

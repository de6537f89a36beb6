import MiniJava.Tac.Instr

namespace MiniJava.Tac

structure Var where
  name : String
  ty : ValType
deriving DecidableEq

/-- The local variables of a method, in the order of their first declarations. A variable's slot is
its place in that order. -/
structure Slots where
  vars : List Var

namespace Slots

def names (t : Slots) : List String := t.vars.map (·.name)

def get? (t : Slots) (name : String) : Option (Nat × ValType) := do
  let i ← t.vars.findIdx? (·.name == name)
  let v ← t.vars[i]?
  return (i, v.ty)

def size (t : Slots) : Nat := t.vars.length

/-- How many slots a method needs; slot 0 always counts. -/
def limit (t : Slots) : Nat := max 1 t.size

def declare (t : Slots) (v : Var) : Slots :=
  if v.name ∈ t.names then t else ⟨t.vars ++ [v]⟩

def declareAll (t : Slots) (vs : List Var) : Slots := vs.foldl declare t

def start (receiver : Option String) : Slots :=
  ⟨receiver.toList.map fun cls ↦ ⟨"this", .cls cls⟩⟩

@[simp] theorem length_names (t : Slots) : t.names.length = t.size := by simp [names, size]

theorem names_declare (t : Slots) (v : Var) :
    (t.declare v).names = if v.name ∈ t.names then t.names else t.names ++ [v.name] := by
  unfold declare
  split <;> simp_all [names]

theorem nodup_names_declare {t : Slots} (h : t.names.Nodup) (v : Var) :
    (t.declare v).names.Nodup := by
  rw [names_declare]
  split
  · exact h
  · next hv =>
    refine List.nodup_append.2 ⟨h, by simp, fun a ha b hb ↦ ?_⟩
    rintro rfl
    exact hv (List.mem_singleton.1 hb ▸ ha)

theorem nodup_names_start (receiver : Option String) : (start receiver).names.Nodup := by
  cases receiver <;> simp [start, names]

/-- Declaring only adds at the end, so no slot changes. -/
theorem vars_declare (t : Slots) (v : Var) : t.vars <+: (t.declare v).vars := by
  unfold declare
  split
  · exact List.prefix_refl _
  · exact List.prefix_append _ _

end Slots

def Operand.var? : Operand → Option Var
  | .var name t => some ⟨name, t⟩
  | _ => none

def codeVars (code : List Instr) : List Var := (code.flatMap Instr.mentions).filterMap Operand.var?

/-- The receiver, then the parameters, then the variables as the code first mentions them. -/
def Slots.ofCode (receiver : Option String) (params : List Var) (code : List Instr) : Slots :=
  ((Slots.start receiver).declareAll params).declareAll (codeVars code)

end MiniJava.Tac

import Mathlib.Data.List.Forall2
import MiniJava.Symbols
import MiniJava.Tac.Instr

namespace MiniJava

namespace Tac

namespace ValType

/-- Objects are references that are no arrays. -/
def IsObject : ValType → Prop
  | .string | .cls _ => True
  | .int | .bool | .void | .array _ => False

/-- A value of the one type may stand where one of the other is wanted. Generated code does not tell
objects apart. -/
def Compatible (a b : ValType) : Prop := a = b ∨ a.IsObject ∧ b.IsObject

theorem Compatible.refl (a : ValType) : a.Compatible a := .inl rfl

end ValType

def Rhs.ty : Rhs → ValType
  | .value x => x.ty
  | .arith .. => .int
  | .less .. | .not _ => .bool
  | .field _ t => t
  | .call k => k.ret

def Operand.WellTyped : Operand → Prop
  | .elem array index t => array.ty = .array t ∧ index.ty = .int
  | .lit .. | .var .. | .param .. | .this _ | .cls _ => True

end Tac

open Tac

def Symbols.Admits (t : Symbols) (method : String) (args : List Operand) (ret : ValType) : Prop :=
  ∀ m, t.method? method = some m → ret = .ofTy m.ret ∧
    List.Forall₂ (fun p v ↦ v.ty.Compatible (.ofTy p.symbol.ty)) m.params args

namespace Tac

variable (t : Symbols)

def Call.WellTyped (k : Call) : Prop :=
  match k.kind with
  | .static cls method args => cls = t.className → t.Admits method args k.ret
  | .virtual recv method args => ∃ cls, recv.ty = .cls cls ∧
      (cls = t.className → t.Admits method args k.ret)
  | .special recv => ∃ cls, recv.ty = .cls cls
  | .new cls => k.ret = .cls cls
  | .newArray size => size.ty = .int
  | .length array => ∃ element, array.ty = .array element

def Rhs.WellTyped : Rhs → Prop
  | .value _ | .field .. => True
  | .arith _ left right | .less left right => left.ty = .int ∧ right.ty = .int
  | .not x => x.ty = .bool
  | .call k => k.WellTyped t

def Cond.WellTyped : Cond → Prop
  | .value x => x.ty = .bool
  | .less left right => left.ty = .int ∧ right.ty = .int

def Instr.Consistent : Instr → Prop
  | .assign dest ty rhs => dest.ty = ty ∧ rhs.ty.Compatible ty ∧ rhs.WellTyped t
  | .putField _ ty x => x.ty.Compatible ty
  | .call k => k.WellTyped t
  | .branch cond _ => cond.WellTyped
  | .return ty none => ty = .void
  | .return ty (some x) => ty ≠ .void ∧ x.ty.Compatible ty
  | .goto _ | .label _ | .invalid _ => True

structure Instr.WellTyped (i : Instr) : Prop where
  consistent : i.Consistent t
  mentions : ∀ x ∈ i.mentions, x.WellTyped

end Tac

end MiniJava

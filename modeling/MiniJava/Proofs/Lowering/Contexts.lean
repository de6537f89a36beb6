import MiniJava.Proofs.Lowering.ExprMeaning
import MiniJava.Proofs.Lowering.Knowing

namespace MiniJava

open Tac Lower

/-- Variables have their types in `Γ`, whatever temporaries are made from `n` on. Those whose names
are loose may have any type. -/
def Tac.Operand.Typed (s : Scope) (loose : String → Prop) (n : Nat) (Γ : Store ValType) :
    Operand → Prop
  | .var x t => loose x ∨ ¬ s.LaterTemp n x ∧ Γ x = t
  | .param i x t => s.storage? x = some (.param i x t)
  | .elem a i _ => a.Typed s loose n Γ ∧ i.Typed s loose n Γ
  | .this owner => owner = s.symbols.className
  | .lit .. | .cls _ => True

section

variable {s : Scope} {loose : String → Prop} {n n' : Nat} {Γ Γ' : Store ValType} {x : Operand}

theorem Tac.Operand.Typed.mono (h : x.Typed s loose n Γ) (hf : s.Frame n Γ Γ') (hn : n ≤ n') :
    x.Typed s loose n' Γ' := by
  induction x with
  | var x t => exact h.imp_right fun h ↦ ⟨fun hx ↦ h.1 (hx.mono hn), (hf x h.1).trans h.2⟩
  | param i x t => exact h
  | elem a i t iha ihi => exact ⟨iha h.1, ihi h.2⟩
  | this owner => exact h
  | lit | cls => trivial

theorem Tac.Operand.Typed.parts (h : x.Typed s loose n Γ) :
    ∀ y ∈ x.parts, y.Typed s loose n Γ := by
  induction x with
  | elem a i t iha ihi =>
    exact List.forall_mem_cons.2 ⟨h, List.forall_mem_append.2 ⟨iha h.1, ihi h.2⟩⟩
  | lit | var | param | this | cls => exact List.forall_mem_singleton.2 h

end

namespace Scope

def Declares (s : Scope) (Γ : Store ValType) : Prop :=
  ∀ name x, s.storage? name = some x → ¬ s.LaterTemp 0 name ∧ Γ name = x.ty

variable {s : Scope} {loose : String → Prop} {n : Nat} {Γ Γ' : Store ValType}
  {known : List Operand} {x : Operand}

theorem Declares.frame (h : s.Declares Γ) (hf : s.Frame n Γ Γ') : s.Declares Γ' := by
  intro name x hx
  obtain ⟨hno, hty⟩ := h name x hx
  exact ⟨hno, (hf name fun hl ↦ hno (hl.mono (Nat.zero_le n))).trans hty⟩

theorem Declares.typed (h : s.Declares Γ) {name : String} (hx : s.storage? name = some x) :
    x.Typed s loose n Γ := by
  obtain ⟨hno, hty⟩ := h name x hx
  obtain ⟨i, p, hb, rfl⟩ | ⟨v, hb, rfl⟩ := storage_cases hx
  · exact hx
  · exact .inr ⟨fun hl ↦ hno (hl.mono (Nat.zero_le n)), hty⟩

theorem Formed.typed (h : s.Formed loose known x) (hd : s.Declares Γ)
    (hk : ∀ y ∈ known, y.Typed s loose n Γ) : x.Typed s loose n Γ := by
  induction h with
  | known hx => exact hk _ hx
  | stored hx => exact hd.typed hx
  | loose t hx => exact .inl hx
  | elem t _ _ iha ihi => exact ⟨iha, ihi⟩
  | this => rfl
  | lit | cls => trivial

end Scope

def Lower.Types {α : Type} (s : Scope) (loose : String → Prop) (known : List Operand)
    (x : Lower α) (gives : α → List Operand) : Prop :=
  ∀ n Γ, s.Declares Γ → (∀ y ∈ known, y.Typed s loose n.temp Γ) → ∃ Γ',
    n.temp ≤ (x n).next.temp ∧ s.Frame n.temp Γ Γ' ∧
      (∀ i ∈ (x n).code, ∀ y ∈ i.operands, y.Typed s loose (x n).next.temp Γ') ∧
      ∀ y ∈ gives (x n).value, y.Typed s loose (x n).next.temp Γ'

namespace Lower.Types

variable {α β : Type} {s : Scope} {loose : String → Prop} {known : List Operand} {x : Lower α}
  {gives : α → List Operand}

theorem pure {a : α} (h : ∀ y ∈ gives a, s.Formed loose known y) :
    Types s loose known (Pure.pure a) gives := fun _ Γ hd hk ↦
  ⟨Γ, Nat.le_refl _, .refl _ Γ, nofun, fun y hy ↦ (h y hy).typed hd hk⟩

theorem emit {i : Instr} (h : ∀ y ∈ i.operands, s.Formed loose known y) :
    Types s loose known (Lower.emit i) fun _ ↦ [] := fun _ Γ hd hk ↦
  ⟨Γ, Nat.le_refl _, .refl _ Γ,
    List.forall_mem_singleton.2 fun y hy ↦ (h y hy).typed hd hk, nofun⟩

theorem silent {i : Instr} (h : i.operands = []) : Types s loose known (Lower.emit i) fun _ ↦ [] :=
  emit fun _ hy ↦ absurd (h ▸ hy) List.not_mem_nil

theorem bind {f : α → Lower β} {gives' : β → List Operand} (hx : Types s loose known x gives)
    (hf : ∀ a, Types s loose (gives a ++ known) (f a) gives') :
    Types s loose known (x >>= f) gives' := by
  intro n Γ hd hk
  obtain ⟨Γ₁, hn₁, hf₁, hcode₁, hvalue₁⟩ := hx n Γ hd hk
  have hknown : ∀ y ∈ gives (x n).value ++ known, y.Typed s loose (x n).next.temp Γ₁ :=
    List.forall_mem_append.2 ⟨hvalue₁, fun y hy ↦ (hk y hy).mono hf₁ hn₁⟩
  obtain ⟨Γ₂, hn₂, hf₂, hcode₂, hvalue₂⟩ := hf _ (x n).next Γ₁ (hd.frame hf₁) hknown
  refine ⟨Γ₂, Nat.le_trans hn₁ hn₂, hf₁.trans hf₂ hn₁, List.forall_mem_append.2 ⟨?_, hcode₂⟩,
    hvalue₂⟩
  exact fun i hi y hy ↦ (hcode₁ i hi y hy).mono hf₂ hn₂

/-- A new name has whatever type it is wanted for. -/
theorem freshName {stem : String} (hs : stem ∈ tempStems) (ty : ValType) :
    Types s loose known (Lower.freshName s.symbols.declaredNames stem) fun x ↦ [.var x ty] := by
  intro n Γ hd hk
  let k := freshNumber s.symbols.declaredNames stem n.temp
  refine ⟨Γ.set (numbered stem k) ty, Nat.le_succ_of_le (le_freshNumber ..),
    .set (Scope.laterTemp_fresh hs n.temp) Γ ty, nofun, List.forall_mem_singleton.2 (.inr ⟨?_, ?_⟩)⟩
  · exact Scope.not_laterTemp_numbered hs (Nat.lt_succ_self k)
  · exact Γ.set_self _ ty

theorem freshLabel : Types s loose known Lower.freshLabel fun _ ↦ [] := fun _ Γ _ _ ↦
  ⟨Γ, Nat.le_refl _, .refl _ Γ, nofun, nofun⟩

theorem unsupported (what : String) (pos : Position) :
    Types s loose known (Lower.unsupported what pos) fun _ ↦ [] := fun _ Γ _ _ ↦
  ⟨Γ, Nat.le_refl _, .refl _ Γ, List.forall_mem_singleton.2 nofun, nofun⟩

end Lower.Types

namespace Scope

variable {s : Scope} {loose : String → Prop} {known : List Operand}

theorem types_freshTemp (ty : ValType) : Types s loose known (s.freshTemp ty) fun y ↦ [y] :=
  (Types.freshName (by decide) ty).bind fun _ ↦
    .pure (List.forall_mem_singleton.2 (.known List.mem_cons_self))

theorem types_assignFresh {stem : String} {ty : ValType} {rhs : Rhs} (hs : stem ∈ tempStems)
    (h : ∀ y ∈ rhs.operands, s.Formed loose known y) :
    Types s loose known (s.assignFresh stem ty rhs) fun y ↦ [y] := by
  refine (Types.freshName hs ty).bind fun x ↦ (Types.emit (List.forall_mem_cons.2 ⟨?_, ?_⟩)).bind
    fun _ ↦ .pure (List.forall_mem_singleton.2 (.known (by simp)))
  · exact .known List.mem_cons_self
  · exact fun y hy ↦ (h y hy).mono (List.subset_append_right _ _)

theorem types_lowerAnd {left right : Lower Operand}
    (hl : ∀ known, Types s loose known left fun y ↦ [y])
    (hr : ∀ known, Types s loose known right fun y ↦ [y]) :
    Types s loose known (s.lowerAnd left right) fun y ↦ [y] := by
  refine (hl _).bind fun l ↦ Types.freshLabel.bind fun id ↦ (types_freshTemp _).bind fun t ↦ ?_
  refine (Types.emit (List.forall_mem_singleton.2 (.known (by simp)))).bind fun _ ↦ ?_
  refine (Types.emit (forall_mem_two.2 ⟨.known (by simp), .lit ..⟩)).bind fun _ ↦ ?_
  refine (Types.silent rfl).bind fun _ ↦ (Types.silent rfl).bind fun _ ↦ (hr _).bind fun r ↦ ?_
  refine (Types.emit (forall_mem_two.2 ⟨.known (by simp), .known (by simp)⟩)).bind fun _ ↦ ?_
  exact (Types.silent rfl).bind fun _ ↦ .pure (List.forall_mem_singleton.2 (.known (by simp)))

theorem types_branch (c : Cond) (l : String) :
    Types s loose (c.operands ++ known) (Lower.emit (.branch c l)) fun _ ↦ [] :=
  .emit fun _ hy ↦ .known (List.mem_append_left _ hy)

section

variable {cond : Expr} {body other : Lower Unit}
  (hc : ∀ known, Types s loose known (s.lowerCond cond) Cond.operands)
  (hb : ∀ known, Types s loose known body fun _ ↦ [])

include hc hb

theorem types_lowerIf (ho : ∀ known, Types s loose known other fun _ ↦ []) :
    Types s loose known (s.lowerIf cond body other) fun _ ↦ [] := by
  refine Types.freshLabel.bind fun id ↦ (hc _).bind fun c ↦ (types_branch c _).bind fun _ ↦ ?_
  refine (Types.silent rfl).bind fun _ ↦ (Types.silent rfl).bind fun _ ↦ (hb _).bind fun _ ↦ ?_
  refine (Types.silent rfl).bind fun _ ↦ (Types.silent rfl).bind fun _ ↦ (ho _).bind fun _ ↦ ?_
  exact Types.silent rfl

theorem types_lowerWhile : Types s loose known (s.lowerWhile cond body) fun _ ↦ [] := by
  refine Types.freshLabel.bind fun id ↦ (hc _).bind fun c ↦ (types_branch c _).bind fun _ ↦ ?_
  refine (Types.silent rfl).bind fun _ ↦ (Types.silent rfl).bind fun _ ↦ (hb _).bind fun _ ↦ ?_
  refine (hc _).bind fun again ↦ (types_branch again _).bind fun _ ↦ ?_
  exact Types.silent rfl

end

/-- All code of a method is typed in one context, but for loose names. -/
theorem knowing_types : Knowing s loose (Types s loose) where
  pure := .pure
  bind := .bind
  emit _ _ := .emit
  assign := types_assignFresh
  unsupported := .unsupported
  and := types_lowerAnd
  ite := types_lowerIf
  loop := types_lowerWhile

end Scope

end MiniJava

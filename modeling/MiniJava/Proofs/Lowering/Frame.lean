import MiniJava.Proofs.Lowering.Numbers
import MiniJava.Proofs.Semantics.TacRun

namespace MiniJava

open Tac Lower

variable {V W : Type}

def Symbols.Agree (t : Symbols) (ρ σ : Store V) : Prop := ∀ x ∈ t.declaredNames, ρ x = σ x

def tempStems : List String := ["tmp", "__varargs_array_"]

theorem plain_of_mem_tempStems {stem : String} (h : stem ∈ tempStems) : Plain stem := by
  have hall : ∀ s ∈ tempStems, Plain s := by decide
  exact hall stem h

namespace Scope

variable (s : Scope)

def LaterTemp (n : Nat) (x : String) : Prop :=
  x ∉ s.symbols.declaredNames ∧ ∃ stem ∈ tempStems, ∃ k, n ≤ k ∧ x = numbered stem k

/-- No variable has changed but for temporaries with numbers from `n` on. -/
def Frame (n : Nat) (ρ ρ' : Store V) : Prop := ∀ x, ¬ s.LaterTemp n x → ρ' x = ρ x

variable {s} {n n' : Nat} {ρ ρ' ρ'' σ : Store V}

theorem LaterTemp.mono {x : String} (h : s.LaterTemp n' x) (hn : n ≤ n') : s.LaterTemp n x := by
  obtain ⟨hx, stem, hs, k, hk, he⟩ := h
  exact ⟨hx, stem, hs, k, Nat.le_trans hn hk, he⟩

theorem not_laterTemp_of_declared {x : String} (h : x ∈ s.symbols.declaredNames) :
    ¬ s.LaterTemp n x := fun hx ↦ hx.1 h

theorem not_laterTemp_numbered {stem : String} (h : stem ∈ tempStems) {k : Nat} (hk : k < n) :
    ¬ s.LaterTemp n (numbered stem k) := by
  rintro ⟨-, stem', hs', j, hj, he⟩
  have hkj := ((numbered_inj (plain_of_mem_tempStems h) (plain_of_mem_tempStems hs')).1 he).2
  omega

theorem laterTemp_fresh {stem : String} (h : stem ∈ tempStems) (n : Nat) :
    s.LaterTemp n (numbered stem (freshNumber s.symbols.declaredNames stem n)) :=
  ⟨freshNumber_free (plain_of_mem_tempStems h) s.symbols.declaredNames n, stem, h, _,
    le_freshNumber .., rfl⟩

namespace Frame

theorem refl (n : Nat) (ρ : Store V) : s.Frame n ρ ρ := fun _ _ ↦ rfl

theorem trans (h : s.Frame n ρ ρ') (h' : s.Frame n' ρ' ρ'') (hn : n ≤ n') : s.Frame n ρ ρ'' :=
  fun x hx ↦ (h' x fun hx' ↦ hx (hx'.mono hn)).trans (h x hx)

theorem set {x : String} (hx : s.LaterTemp n x) (ρ : Store V) (v : V) :
    s.Frame n ρ (ρ.set x v) := by
  intro y hy
  refine ρ.set_of_ne v ?_
  rintro rfl
  exact hy hx

theorem agree (h : s.Frame n ρ ρ') (ha : s.symbols.Agree ρ σ) : s.symbols.Agree ρ' σ :=
  fun x hx ↦ (h x (not_laterTemp_of_declared hx)).trans (ha x hx)

end Frame

end Scope

def Tac.Operand.Settled (s : Scope) (n : Nat) : Operand → Prop
  | .var x _ | .param _ x _ => ¬ s.LaterTemp n x
  | .lit .. | .this _ | .cls _ => True
  | .elem .. => False

structure Holds (I : Interp V W) (s : Scope) (a : Operand) (v : V) (n : Nat) (ρ : Store V) :
    Prop where
  settled : a.Settled s n
  eval_eq : a.eval (.ofSource I) ρ = pure v

/-- What a step of code generation that only makes temporaries from `n` on cannot spoil. -/
def Scope.Stable (s : Scope) (P : Nat → Store V → Prop) : Prop :=
  ∀ ⦃n n' : Nat⦄ ⦃ρ ρ' : Store V⦄, n ≤ n' → s.Frame n ρ ρ' → P n ρ → P n' ρ'

theorem Scope.Stable.and {s : Scope} {P Q : Nat → Store V → Prop} (hP : s.Stable P)
    (hQ : s.Stable Q) : s.Stable fun n ρ ↦ P n ρ ∧ Q n ρ :=
  fun _ _ _ _ hn hf h ↦ ⟨hP hn hf h.1, hQ hn hf h.2⟩

theorem Symbols.Agree.set {t : Symbols} {ρ σ : Store V} (h : t.Agree ρ σ) (x : String) (v : V) :
    t.Agree (ρ.set x v) (σ.set x v) := by
  intro y hy
  by_cases hxy : y = x
  · subst hxy
    rw [Store.set_self, Store.set_self]
  · rw [ρ.set_of_ne v hxy, σ.set_of_ne v hxy, h y hy]

theorem Holds.stable {I : Interp V W} {s : Scope} (a : Operand) (v : V) :
    s.Stable (Holds I s a v) := by
  rintro n n' ρ ρ' hn hf ⟨hs, he⟩
  cases a with
  | lit | this | cls => exact ⟨trivial, he⟩
  | var x t | param i x t =>
    refine ⟨fun hx ↦ hs (hx.mono hn), ?_⟩
    rw [← he]
    simp only [Operand.eval, hf x hs]
  | elem array index t => exact hs.elim

end MiniJava

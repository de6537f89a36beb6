namespace MiniJava

inductive Outcome (W α : Type) where
  | done (value : α) (world : W)
  | abort (world : W)

/-- A computation that may change the world, and may abort. -/
def Effect (W α : Type) : Type := W → Outcome W α

namespace Effect

variable {W α β : Type}

protected def pure (a : α) : Effect W α := fun w ↦ .done a w

protected def bind (x : Effect W α) (f : α → Effect W β) : Effect W β := fun w ↦
  match x w with
  | .done a w' => f a w'
  | .abort w' => .abort w'

instance : Monad (Effect W) where
  pure := Effect.pure
  bind := Effect.bind

@[simp] theorem pure_apply (a : α) (w : W) : (pure a : Effect W α) w = .done a w := rfl

theorem bind_done {x : Effect W α} {w w' : W} {a : α} (h : x w = .done a w')
    (f : α → Effect W β) : (x >>= f) w = f a w' := by
  simp only [bind, Effect.bind, h]

theorem bind_abort {x : Effect W α} {w w' : W} (h : x w = .abort w')
    (f : α → Effect W β) : (x >>= f) w = .abort w' := by
  simp only [bind, Effect.bind, h]

instance : LawfulMonad (Effect W) := LawfulMonad.mk' (Effect W)
  (fun x ↦ by
    funext w
    cases h : x w <;> simp [Functor.map, Effect.bind, Effect.pure, h])
  (fun a f ↦ rfl)
  (fun x f g ↦ by
    funext w
    cases h : x w <;> simp only [bind, Effect.bind, h])

def Yields (x : Effect W α) (a : α) : Prop := ∃ w w', x w = .done a w'

theorem Yields.of_bind {x : Effect W α} {f : α → Effect W β} {b : β} (h : (x >>= f).Yields b) :
    ∃ a, x.Yields a ∧ (f a).Yields b := by
  obtain ⟨w, w', hb⟩ := h
  cases hx : x w with
  | done a w₁ =>
    rw [bind_done hx] at hb
    exact ⟨a, ⟨w, w₁, hx⟩, w₁, w', hb⟩
  | abort w₁ =>
    rw [bind_abort hx] at hb
    exact absurd hb nofun

theorem Yields.of_pure {a b : α} (h : (pure a : Effect W α).Yields b) : a = b := by
  obtain ⟨w, w', h⟩ := h
  exact (Outcome.done.inj h).1

def inOrder : List (Effect W α) → Effect W (List α)
  | [] => return []
  | x :: xs => do
    let a ← x
    let as ← inOrder xs
    return a :: as

end Effect

end MiniJava

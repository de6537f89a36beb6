import MiniJava.Proofs.Semantics.Machine
import MiniJava.Proofs.Semantics.Tac

namespace MiniJava.Jasmin

variable {V W α β : Type}

def Interp.ofBool (J : Interp V W) (b : Bool) : V := J.int (if b then 1 else 0)

def owner? : Tac.ValType → Option String
  | .cls name => some name
  | .string => some stringPath
  | .int | .bool | .void | .array _ => none

def ownerName (t : Tac.ValType) : String := (owner? t).getD ""

/-- Three-address code of a class, read with what the opcodes mean. Names of classes stand for their
paths, and truth values are numbers. -/
def Interp.tac (J : Interp V W) (c : Tac.Class) (this : V) : Tac.Interp V W where
  lit v _ := J.int v.toInt
  this := this
  cls _ := this
  isTrue v := !J.isZero v
  arith := J.arith
  less l r := return J.ofBool (J.less l r)
  not v := return J.ofBool (J.isZero v)
  readField name t := J.getfield c.name name (c.jtype t) this
  writeField name t v := J.putfield c.name name (c.jtype t) this v
  load t array i := J.arrayLoad (elementKind t) array i
  store t array i v := J.arrayStore (elementKind t) array i v
  act
    | .static cls method args => J.invoke .static (c.classPath cls) method args
    | .virtual t recv method args =>
      J.invoke .virtual (c.classPath (ownerName t)) method (recv :: args)
    | .superInit recv => J.invoke .special c.superPath "<init>" [recv]
    | .init t recv => J.invoke .special (c.classPath (ownerName t)) "<init>" [recv]
    | .new cls => J.new (c.classPath cls)
    | .newArray t size => J.newarray (t.element?.elim .int c.jtype) size
    | .length array => J.arraylength array

theorem Interp.isTrue_ofBool (J : Interp V W) (c : Tac.Class) (this : V) (b : Bool) :
    (J.tac c this).isTrue (J.ofBool b) = b := by
  cases b with
  | false => simp [Interp.tac, Interp.ofBool, J.isZero_zero]
  | true => simp [Interp.tac, Interp.ofBool, J.isZero_one]

section

variable (J : Interp V W) (lines : List (Line Opcode)) (L : Locals V)

/-- The lines at a place do what an effect does and leave its value on the stack, as `top` puts it
there. They change no slot. -/
def Does (pc : Nat) (part : List (Line Opcode)) (S : List V) (act : Effect W α)
    (top : α → List V) : Prop :=
  ∀ w, match act w with
    | .done a w' => Reaches J lines ⟨pc, S, L, w⟩ ⟨pc + part.length, top a, L, w'⟩
    | .abort w' => Aborts J lines ⟨pc, S, L, w⟩ w'

def Decides (pc : Nat) (part : List (Line Opcode)) (S : List V) (act : Effect W Bool)
    (l : String) : Prop :=
  ∀ w, match act w with
    | .done b w' => ∃ k T o d, Reaches J lines ⟨pc, S, L, w⟩ ⟨k, T, L, w'⟩ ∧
        k + 1 = pc + part.length ∧ lines[k]? = some (.op o d) ∧ o.exec J L w' T = .when b l S L w'
    | .abort w' => Aborts J lines ⟨pc, S, L, w⟩ w'

end

section

variable {J : Interp V W} {lines part part' : List (Line Opcode)} {L L' : Locals V} {pc k : Nat}
  {S T : List V} {w w' : W} {o : Opcode} {d : Int} {l : String}

theorem Reaches.one {a b : Config V W} (h : step J lines a = .run b) : Reaches J lines a b :=
  .single h

theorem Reaches.aborts {a b : Config V W} (h : Reaches J lines a b) (h' : Aborts J lines b w) :
    Aborts J lines a w := by
  obtain ⟨c, hc, hs⟩ := h'
  exact ⟨c, Relation.ReflTransGen.trans h hc, hs⟩

theorem step_eq_run (hi : lines[pc]? = some (.op o d)) (he : o.exec J L w S = .next T L' w') :
    step J lines ⟨pc, S, L, w⟩ = .run ⟨pc + 1, T, L', w'⟩ := by
  simp only [step, hi, he]

theorem step_eq_aborted (hi : lines[pc]? = some (.op o d)) (he : o.exec J L w S = .aborted w') :
    step J lines ⟨pc, S, L, w⟩ = .aborted w' := by
  simp only [step, hi, he]

theorem step_eq_jump (hi : lines[pc]? = some (.op o d)) (he : o.exec J L w S = .jump l T L' w')
    (hl : target? lines l = some k) : step J lines ⟨pc, S, L, w⟩ = .run ⟨k, T, L', w'⟩ := by
  simp only [step, hi, he, hl, Option.elim_some]

theorem step_eq_left (hi : lines[pc]? = some (.op o d)) (he : o.exec J L w S = .jump l T L' w')
    (hl : target? lines l = none) : step J lines ⟨pc, S, L, w⟩ = .left l T L' w' := by
  simp only [step, hi, he, hl, Option.elim_none]

theorem step_label (hi : lines[pc]? = some (.label l)) :
    step J lines ⟨pc, S, L, w⟩ = .run ⟨pc + 1, S, L, w⟩ := by
  simp only [step, hi]

namespace Does

variable {act : Effect W α} {top : α → List V}

theorem nil {a : α} (h : top a = S) : Does J lines L pc [] S (pure a) top := by
  intro w
  subst h
  exact .refl

theorem bind_of_yields {f : α → Effect W β} {top' : β → List V}
    (h : Does J lines L pc part S act top)
    (h' : ∀ a, act.Yields a → Does J lines L (pc + part.length) part' (top a) (f a) top') :
    Does J lines L pc (part ++ part') S (act >>= f) top' := by
  intro w
  have hrun := h w
  cases hw : act w with
  | abort w' =>
    rw [hw] at hrun
    rw [Effect.bind_abort hw]
    exact hrun
  | done a w' =>
    rw [hw] at hrun
    rw [Effect.bind_done hw]
    have hrest := h' a ⟨w, w', hw⟩ w'
    cases hf : f a w' with
    | done b w₂ =>
      rw [hf] at hrest
      rw [List.length_append, ← Nat.add_assoc]
      exact Relation.ReflTransGen.trans hrun hrest
    | abort w₂ =>
      rw [hf] at hrest
      exact Reaches.aborts hrun hrest

theorem bind {f : α → Effect W β} {top' : β → List V} (h : Does J lines L pc part S act top)
    (h' : ∀ a, Does J lines L (pc + part.length) part' (top a) (f a) top') :
    Does J lines L pc (part ++ part') S (act >>= f) top' :=
  h.bind_of_yields fun a _ ↦ h' a

theorem op (hat : At lines pc [.op o d])
    (h : ∀ w, o.exec J L w S = .after act w fun a w' ↦ .next (top a) L w') :
    Does J lines L pc [.op o d] S act top := by
  intro w
  have hexec := h w
  cases hw : act w with
  | done a w' =>
    simp only [Flow.after, hw] at hexec
    exact .one (step_eq_run hat.head hexec)
  | abort w' =>
    simp only [Flow.after, hw] at hexec
    exact ⟨_, .refl, step_eq_aborted hat.head hexec⟩

theorem map {act' : Effect W β} {top' : β → List V} (h : Does J lines L pc part S act top)
    (g : α → β) (hact : act' = act >>= fun a ↦ pure (g a)) (htop : ∀ a, top' (g a) = top a) :
    Does J lines L pc part S act' top' := by
  intro w
  have hrun := h w
  subst hact
  cases hw : act w with
  | done a w' =>
    rw [hw] at hrun
    rw [Effect.bind_done hw, Effect.pure_apply]
    simp only [htop]
    exact hrun
  | abort w' =>
    rw [hw] at hrun
    rw [Effect.bind_abort hw]
    exact hrun

end Does

end

end MiniJava.Jasmin

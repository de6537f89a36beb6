import Mathlib.Tactic.SplitIfs
import MiniJava.Proofs.Assembly.BodyLabels
import MiniJava.Proofs.Lowering.Issued

namespace MiniJava.Jasmin

open Tac

def Opcode.Inner : Opcode → Prop
  | .load .. | .store .. | .return _ => False
  | _ => True

def Line.Inner : Line Opcode → Prop
  | .op o _ => o.Inner
  | .label _ | .comment _ => True

def Yields {α : Type} (A : α → Prop) (B : Finding → Prop) : Except Finding α → Prop
  | .ok a => A a
  | .error f => B f

namespace Yields

variable {α β : Type} {A A' : α → Prop} {B : Finding → Prop} {C : β → Prop}
  {x : Except Finding α}

theorem of_forall (hA : ∀ a, A a) (hB : ∀ f, B f) (x : Except Finding α) : Yields A B x := by
  cases x with
  | ok a => exact hA a
  | error f => exact hB f

theorem mono (h : Yields A B x) (hA : ∀ a, A a → A' a) : Yields A' B x := by
  cases x with
  | ok a => exact hA a h
  | error f => exact h

theorem bind {f : α → Except Finding β} (h : Yields A B x) (hf : ∀ a, A a → Yields C B (f a)) :
    Yields C B (x >>= f) := by
  cases x with
  | ok a => exact hf a h
  | error e => exact h

theorem map {f : α → β} (h : Yields A B x) (hf : ∀ a, A a → C (f a)) : Yields C B (f <$> x) := by
  cases x with
  | ok a => exact hf a h
  | error e => exact h

end Yields

theorem mem_findings_track {method : String} {d : Depth} {found : Bool} {os : List Outcome}
    {f : Finding} (h : f ∈ (track method d found os).2) :
    .error f ∈ os ∨ f = .underflow method := by
  induction os generalizing d found with
  | nil => exact absurd h List.not_mem_nil
  | cons o os ih =>
    rcases List.mem_append.1 h with h | h
    · rcases List.mem_append.1 h with h | h
      · cases o with
        | ok part => exact absurd h List.not_mem_nil
        | error e => exact .inl (List.mem_singleton.1 h ▸ List.mem_cons_self)
      · split at h
        · exact absurd h List.not_mem_nil
        · exact .inr (List.mem_singleton.1 h)
    · exact (ih h).imp_left (List.mem_cons_of_mem o)

abbrev Lines (A : Line Opcode → Prop) (part : List (Line Opcode)) : Prop := ∀ l ∈ part, A l

/-- Properties of the lines and of the findings of a method that its instructions can only break
where they use variables or return. -/
structure Keeps (m : Tac.Method) (A : Line Opcode → Prop) (B : Finding → Prop) : Prop where
  inner (l : Line Opcode) : l.Inner → A l
  receiver : A loadThis
  unsupported (what : String) : B (unsupported m what)

def Placed (m : Tac.Method) (A : Line Opcode → Prop) (B : Finding → Prop) : Operand → Prop
  | .var name _ | .param _ name _ =>
    Yields (fun ki ↦ A (.op (.load ki.1 ki.2) 1) ∧ A (.op (.store ki.1 ki.2) (-1))) B (slot m name)
  | .lit .. | .elem .. | .this _ | .cls _ => True

variable {A : Line Opcode → Prop} {B : Finding → Prop} {c : Tac.Class} {m : Tac.Method} {n : Nat}
  {part part' : List (Line Opcode)}

theorem Lines.append (h : Lines A part) (h' : Lines A part') : Lines A (part ++ part') :=
  List.forall_mem_append.2 ⟨h, h'⟩

theorem Lines.one {l : Line Opcode} (h : A l) : Lines A [l] := List.forall_mem_singleton.2 h

namespace Keeps

variable (h : Keeps m A B)

include h

theorem op {o : Opcode} (ho : o.Inner) (δ : Int) : Lines A [.op o δ] := .one (h.inner _ ho)

theorem snoc (hp : Lines A part) {o : Opcode} (ho : o.Inner) (δ : Int) :
    Lines A (part ++ [.op o δ]) := hp.append (h.op ho δ)

theorem constant (v : Int32) : Lines A [.op (.constant v) 1] := by
  refine h.op ?_ _
  unfold Opcode.constant
  split_ifs <;> trivial

theorem load {x : Operand} (hx : ∀ y ∈ x.parts, Placed m A B y) :
    Yields (Lines A) B (load m x) := by
  induction x with
  | lit v t => exact h.constant v
  | this cls => exact Lines.one h.receiver
  | cls name => exact h.unsupported _
  | var name t | param j name t =>
    have hslot : Placed m A B _ := hx _ (List.mem_singleton_self _)
    exact Yields.bind hslot fun ki hki ↦ Lines.one hki.1
  | elem array index t iha ihi =>
    obtain ⟨-, hparts⟩ := List.forall_mem_cons.1 hx
    obtain ⟨harray, hindex⟩ := List.forall_mem_append.1 hparts
    refine Yields.bind (iha harray) fun a ha ↦ Yields.bind (ihi hindex) fun i hi ↦ ?_
    exact h.snoc (Lines.append ha hi) (by trivial) _

theorem store {x : Operand} (hx : Placed m A B x) : Yields A B (store m x) := by
  cases x with
  | var name t | param j name t => exact Yields.bind hx fun ki hki ↦ hki.2
  | lit | elem | this | cls => exact h.unsupported _

theorem loadAll {xs : List Operand} (hx : ∀ x ∈ xs, ∀ y ∈ x.parts, Placed m A B y) :
    Yields (Lines A) B (loadAll m xs) := by
  induction xs with
  | nil => exact fun _ ↦ nofun
  | cons x xs ih =>
    obtain ⟨hfirst, hrest⟩ := List.forall_mem_cons.1 hx
    exact Yields.bind (h.load hfirst) fun a ha ↦ Yields.bind (ih hrest) fun b hb ↦
      Lines.append ha hb

section

variable {left right : Operand} (hl : ∀ y ∈ left.parts, Placed m A B y)
  (hr : ∀ y ∈ right.parts, Placed m A B y)

include hl hr

theorem loadPlace : Yields (Lines A) B (loadPlace m left right) :=
  Yields.bind (h.load hl) fun _ ha ↦ Yields.bind (h.load hr) fun _ hb ↦ Lines.append ha hb

theorem jumpLess (l : String) : Yields (Lines A) B (jumpLess m left right l) := by
  unfold Jasmin.jumpLess
  split_ifs
  · exact Yields.bind (h.load hl) fun _ ha ↦ h.snoc ha (by trivial) _
  · exact Yields.bind (h.load hr) fun _ hb ↦ h.snoc hb (by trivial) _
  · exact Yields.bind (h.load hl) fun _ ha ↦ Yields.bind (h.load hr) fun _ hb ↦
      h.snoc (Lines.append ha hb) (by trivial) _

end

theorem pushBoolean (n : Nat) : Lines A (pushBoolean n) := by
  intro l hl
  refine h.inner l ?_
  simp only [Jasmin.pushBoolean, List.mem_cons, List.not_mem_nil, or_false] at hl
  rcases hl with rfl | rfl | rfl | rfl | rfl <;> trivial

theorem owner (t : ValType) : Yields (fun _ ↦ True) B (owner m t) := by
  cases t with
  | cls | string => trivial
  | int | bool | void | array => exact h.unsupported _

theorem constructorOwner (x : Operand) : Yields (fun _ ↦ True) B (constructorOwner c m x) := by
  cases x with
  | this cls => trivial
  | lit | var | param | elem | cls => exact Yields.map (h.owner _) fun _ _ ↦ trivial

theorem call {k : Call} (hk : ∀ x ∈ k.kind.operands, ∀ y ∈ x.parts, Placed m A B y) :
    Yields (Lines A) B (call c m k) := by
  obtain ⟨kind, ret⟩ := k
  cases kind with
  | static cls method args =>
    exact Yields.bind (h.loadAll hk) fun _ hv ↦ h.snoc hv (by trivial) _
  | virtual recv method args =>
    obtain ⟨hrecv, hargs⟩ := List.forall_mem_cons.1 hk
    exact Yields.bind (h.owner _) fun _ _ ↦ Yields.bind (h.load hrecv) fun _ hr ↦
      Yields.bind (h.loadAll hargs) fun _ hv ↦ h.snoc (Lines.append hr hv) (by trivial) _
  | special recv =>
    have hrecv := hk recv (List.mem_singleton_self recv)
    exact Yields.bind (h.constructorOwner recv) fun _ _ ↦ Yields.bind (h.load hrecv) fun _ hr ↦
      h.snoc hr (by trivial) _
  | new cls => exact h.op (by trivial) _
  | newArray x | length x =>
    have hx := hk x (List.mem_singleton_self x)
    exact Yields.bind (h.load hx) fun _ hv ↦ h.snoc hv (by trivial) _

theorem rhs {r : Rhs} (hr : ∀ x ∈ r.operands, ∀ y ∈ x.parts, Placed m A B y) :
    Yields (Lines A) B (rhs c m n r) := by
  cases r with
  | value x => exact h.load (hr x (List.mem_singleton_self x))
  | arith op left right =>
    obtain ⟨hleft, hright⟩ := forall_mem_two.1 hr
    exact Yields.bind (h.load hleft) fun _ ha ↦ Yields.bind (h.load hright) fun _ hb ↦
      h.snoc (Lines.append ha hb) (by trivial) _
  | less left right =>
    obtain ⟨hleft, hright⟩ := forall_mem_two.1 hr
    exact Yields.bind (h.jumpLess hleft hright _) fun _ ht ↦ Lines.append ht (h.pushBoolean n)
  | not x =>
    have hx := hr x (List.mem_singleton_self x)
    exact Yields.bind (h.load hx) fun _ hv ↦
      (h.snoc hv (by trivial) _).append (h.pushBoolean n)
  | field name t =>
    exact List.forall_mem_cons.2 ⟨h.receiver, h.op (by trivial) _⟩
  | call k => exact h.call hr

/-- Whatever an instruction is assembled to, its lines satisfy `A` and its finding satisfies `B`, as
soon as its variables are placed so and its return is such a line. -/
theorem instr {i : Instr} (hi : ∀ x ∈ i.mentions, Placed m A B x)
    (hret : ∀ t v, i = .return t v → A (returnLine t)) :
    Yields (Lines A) B (instr c m n i).1 := by
  have hi : ∀ x ∈ i.operands, ∀ y ∈ x.parts, Placed m A B y := by
    intro x hx y hy
    exact hi y (List.mem_flatMap.2 ⟨x, hx, hy⟩)
  cases i with
  | assign dest t r =>
    obtain ⟨hdest, hrhs⟩ := List.forall_mem_cons.1 hi
    have hvalue : Yields (Lines A) B (Jasmin.rhs c m n r) := h.rhs hrhs
    cases dest with
    | elem array index ty =>
      obtain ⟨-, hparts⟩ := List.forall_mem_cons.1 hdest
      obtain ⟨harray, hindex⟩ := List.forall_mem_append.1 hparts
      have hplace := h.loadPlace harray hindex
      rw [Jasmin.instr]
      cases hp : Jasmin.loadPlace m array index with
      | error f =>
        rw [hp] at hplace
        exact hplace
      | ok place =>
        rw [hp] at hplace
        exact Yields.bind hvalue fun _ hv ↦ h.snoc (Lines.append hplace hv) (by trivial) _
    | lit | var | param | this | cls =>
      have hline := h.store (hdest _ (List.mem_singleton_self _))
      exact Yields.bind hvalue fun _ hv ↦ Yields.bind hline fun _ hl ↦
        Lines.append hv (.one hl)
  | putField name t x =>
    have hx := hi x (List.mem_singleton_self x)
    exact Yields.bind (h.load hx) fun _ hv ↦
      List.forall_mem_cons.2 ⟨h.receiver, h.snoc hv (by trivial) _⟩
  | call k =>
    refine Yields.bind (h.call hi) fun _ hv ↦ Lines.append hv ?_
    split_ifs
    · exact List.forall_mem_nil _
    · exact h.op (by trivial) _
  | branch cond l =>
    cases cond with
    | value x =>
      have hx := hi x (List.mem_singleton_self x)
      exact Yields.bind (h.load hx) fun _ hv ↦ h.snoc hv (by trivial) _
    | less left right =>
      obtain ⟨hleft, hright⟩ := forall_mem_two.1 hi
      exact h.jumpLess hleft hright l
  | goto l | label l | invalid l => exact Lines.one (h.inner _ trivial)
  | «return» t x =>
    cases x with
    | none => exact Lines.one (hret t none rfl)
    | some x =>
      have hx := hi x (List.mem_singleton_self x)
      exact Yields.bind (h.load hx) fun _ hv ↦ Lines.append hv (.one (hret t _ rfl))

theorem linesOf {o : Outcome} (ho : Yields (Lines A) B o) : Lines A (linesOf o) := by
  cases o with
  | ok part => exact ho
  | error f => exact Lines.one (h.inner _ trivial)

section

variable (hcode : ∀ i ∈ m.code,
  (∀ x ∈ i.mentions, Placed m A B x) ∧ ∀ t v, i = .return t v → A (returnLine t))

include hcode

theorem outcomes : ∀ o ∈ (outcomes c m n m.code).1, Yields (Lines A) B o :=
  forall_outcomes fun i hi _ ↦ h.instr (hcode i hi).1 (hcode i hi).2

theorem lines (hlast : A (returnLine .void)) : Lines A (body c n m).lines := by
  rw [lines_body]
  refine Lines.append (List.forall_mem_flatMap.2 fun o ho ↦ ?_) ?_
  · exact h.linesOf (h.outcomes hcode o ho)
  · split
    · exact Lines.one hlast
    · exact nofun

theorem findings : ∀ f ∈ (body c n m).findings, B f ∨ f = .underflow m.name := by
  intro f hf
  refine (mem_findings_track hf).imp_left fun hfailed ↦ ?_
  exact h.outcomes hcode _ hfailed

end

end Keeps

end MiniJava.Jasmin

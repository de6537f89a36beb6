import MiniJava.Proofs.Lowering.Blocks
import MiniJava.Proofs.Tree.Subterms

namespace MiniJava

open Tac

def Tac.Instr.target? : Instr → Option String
  | .branch _ l | .goto l => some l
  | _ => none

def Tac.Instr.Simple : Instr → Prop
  | .assign _ _ (.call ⟨.static .., _⟩) | .assign _ _ (.call ⟨.virtual .., _⟩) => False
  | .assign .. | .putField .. | .call ⟨.special _, .void⟩ => True
  | .call _ | .branch .. | .goto _ | .label _ | .return .. | .invalid _ => False

def Tac.Instr.Plain (i : Instr) : Prop :=
  i.label? = none ∧ i.target? = none ∧ ∀ what, i ≠ .invalid what

theorem Tac.Instr.Simple.plain {i : Instr} (h : i.Simple) : i.Plain := by
  cases i with
  | assign | putField | call => exact ⟨rfl, rfl, nofun⟩
  | branch | goto | label | «return» | invalid => exact h.elim

/-- A property of code generation that holds of all lowering as soon as it holds of its steps, which
emit instructions that satisfy `A`. Only the three blocks at the end make labels and jumps. -/
structure Lower.Closed (A : Instr → Prop) (P : {α : Type} → Lower α → Prop) : Prop where
  simple (i : Instr) : i.Simple → A i
  emit (i : Instr) : A i → P (Lower.emit i)
  pure {α : Type} (a : α) : P (pure a : Lower α)
  bind_value {α β : Type} {x : Lower α} {f : α → Lower β} :
    P x → (∀ n, P (f (x n).value)) → P (x >>= f)
  name (taken : List String) (stem : String) : P (freshName taken stem)
  unsupported (what : String) (pos : Position) : P (Lower.unsupported what pos)
  and (s : Scope) {left right : Lower Operand} : P left → P right → P (s.lowerAnd left right)
  ite (s : Scope) (cond : Expr) {body other : Lower Unit} :
    P (s.lowerCond cond) → P body → P other → P (s.lowerIf cond body other)
  loop (s : Scope) (cond : Expr) {body : Lower Unit} :
    P (s.lowerCond cond) → P body → P (s.lowerWhile cond body)

def Scope.Allows (s : Scope) (A : Instr → Prop) : Expr → Prop
  | .call recv method args _ => ∀ hint n,
    let k := (s.lowerCall recv method args hint n).value
    A (.call k) ∧ ∀ dest, A (.assign dest k.ret (.call k))
  | _ => True

namespace Lower.Closed

variable {A : Instr → Prop} {P : {α : Type} → Lower α → Prop} (h : Closed A P) (s : Scope)

include h

theorem bind {α β : Type} {x : Lower α} {f : α → Lower β} (hx : P x) (hf : ∀ a, P (f a)) :
    P (x >>= f) := h.bind_value hx fun _ ↦ hf _

theorem toTemp (ty : ValType) {rhs : Rhs} (hr : ∀ dest, A (.assign dest ty rhs)) :
    P (s.toTemp ty rhs) :=
  h.bind (h.bind (h.name ..) fun _ ↦ h.pure _) fun _ ↦ h.bind (h.emit _ (hr _)) fun _ ↦ h.pure _

theorem lowerIdent (id : Ident) (hint : Option ValType) : P (s.lowerIdent id hint) := by
  unfold Scope.lowerIdent
  split
  case h_6 => exact h.bind (h.unsupported ..) fun _ ↦ h.pure _
  all_goals first | exact h.pure _ | exact h.toTemp s _ fun _ ↦ h.simple _ trivial

section

variable {xs : List (Option ValType → Lower Operand)} (hxs : ∀ x ∈ xs, ∀ hint, P (x hint))

include hxs

theorem lowerInOrder (hints : List ValType) : P (Scope.lowerInOrder hints xs) := by
  induction xs generalizing hints with
  | nil => exact h.pure _
  | cons x xs ih =>
    have ⟨hx, hxs⟩ := List.forall_mem_cons.1 hxs
    exact h.bind (hx _) fun _ ↦ h.bind (ih hxs _) fun _ ↦ h.pure _

theorem storeFrom (array : Operand) (element : ValType) (i : Nat) :
    P (Scope.storeFrom array element i xs) := by
  induction xs generalizing i with
  | nil => exact h.pure _
  | cons x xs ih =>
    have ⟨hx, hxs⟩ := List.forall_mem_cons.1 hxs
    exact h.bind (hx _) fun _ ↦ h.bind (h.emit _ (h.simple _ trivial)) fun _ ↦ ih hxs _

theorem pack (ty : ValType) : P (s.pack ty xs) :=
  h.bind (h.toTemp s _ fun _ ↦ h.simple _ trivial) fun _ ↦ h.bind (h.name ..) fun _ ↦
    h.bind (h.emit _ (h.simple _ trivial)) fun _ ↦ h.bind (h.storeFrom hxs ..) fun _ ↦ h.pure _

theorem lowerArgs (target : Option Signature) (args : List Expr) :
    P (s.lowerArgs target args xs) := by
  unfold Scope.lowerArgs
  simp only
  split
  · exact h.lowerInOrder hxs _
  · exact h.bind (h.lowerInOrder (fun x hx ↦ hxs x (List.mem_of_mem_take hx)) _) fun _ ↦
      h.bind (h.pack s (fun x hx ↦ hxs x (List.mem_of_mem_drop hx)) _) fun _ ↦ h.pure _

theorem lowerCallWith {recv : Lower Operand} (hrecv : P recv) (e : Expr) (method : Ident)
    (args : List Expr) (hint : Option ValType) :
    P (s.lowerCallWith e method args hint recv xs) := by
  unfold Scope.lowerCallWith
  simp only
  split
  · exact h.bind (h.lowerArgs s hxs ..) fun _ ↦ h.pure _
  · exact h.bind hrecv fun _ ↦ h.bind (h.lowerArgs s hxs ..) fun _ ↦ h.pure _

end

theorem lowerNewObject (cls : Ident) (pos : Position) : P (s.lowerNewObject cls pos) := by
  have hcreate : P (s.createObject cls.name) :=
    h.bind (h.toTemp s _ fun _ ↦ h.simple _ trivial) fun _ ↦
      h.bind (h.emit _ (h.simple _ trivial)) fun _ ↦ h.pure _
  rw [s.lowerNewObject_eq]
  split
  · exact hcreate
  · exact h.bind (h.unsupported ..) fun _ ↦ hcreate

theorem lower {e : Expr} (he : e.Everywhere (s.Allows A)) (hint : Option ValType) :
    P (s.lower e hint) := by
  induction e using Expr.children_induction generalizing hint with
  | step e ih =>
    have ih (c : Expr) (hc : c ∈ e.children) (hint : Option ValType) : P (s.lower c hint) :=
      ih c hc (he.inside c hc) hint
    cases e with
    | int => exact h.pure _
    | bool => exact h.pure _
    | ident id => exact h.lowerIdent s id hint
    | this => exact h.pure _
    | binary op left right pos =>
      have hl := ih left (by simp [Expr.children])
      have hr := ih right (by simp [Expr.children])
      cases op with
      | arith op =>
        exact h.bind (hl _) fun _ ↦ h.bind (hr _) fun _ ↦ h.toTemp s _ fun _ ↦ h.simple _ trivial
      | less =>
        exact h.bind (hl _) fun _ ↦ h.bind (hr _) fun _ ↦ h.toTemp s _ fun _ ↦ h.simple _ trivial
      | and => exact h.and s (hl _) (hr _)
    | not e pos =>
      exact h.bind (ih e (by simp [Expr.children]) _) fun _ ↦
        h.toTemp s _ fun _ ↦ h.simple _ trivial
    | paren e pos => exact ih e (by simp [Expr.children]) hint
    | index base idx pos =>
      exact h.bind (ih base (by simp [Expr.children]) _) fun _ ↦
        h.bind (ih idx (by simp [Expr.children]) _) fun _ ↦ h.toTemp s _ fun _ ↦ h.simple _ trivial
    | length base pos =>
      exact h.bind (ih base (by simp [Expr.children]) _) fun _ ↦
        h.toTemp s _ fun _ ↦ h.simple _ trivial
    | call recv method args pos =>
      refine h.bind_value (h.lowerCallWith s ?_ (ih recv (by simp [Expr.children]) _) ..) fun n ↦
        h.toTemp s _ (he.here hint n).2
      rw [s.lowerEach_eq_map]
      exact List.forall_mem_map.2 fun e he ↦ ih e (by simp [Expr.children, he])
    | newObject cls pos => exact h.lowerNewObject s cls pos
    | newArray size pos =>
      exact h.bind (ih size (by simp [Expr.children]) _) fun _ ↦
        h.toTemp s _ fun _ ↦ h.simple _ trivial
    | array elems pos =>
      refine h.bind (h.toTemp s _ fun _ ↦ h.simple _ trivial) fun _ ↦
        h.bind (h.storeFrom ?_ ..) fun _ ↦ h.pure _
      rw [s.lowerEach_eq_map]
      exact List.forall_mem_map.2 fun e he ↦ ih e (by simp [Expr.children, he])

theorem lowerCall {recv : Expr} {method : Ident} {args : List Expr} {pos : Position}
    (he : (Expr.call recv method args pos).Everywhere (s.Allows A)) (hint : Option ValType) :
    P (s.lowerCall recv method args hint) := by
  refine h.lowerCallWith s ?_ (h.lower s (he.inside recv (by simp [Expr.children])) _) ..
  rw [s.lowerEach_eq_map]
  exact List.forall_mem_map.2 fun e ha ↦ h.lower s (he.inside e (by simp [Expr.children, ha]))

theorem lowerCond {cond : Expr} (he : cond.Everywhere (s.Allows A)) : P (s.lowerCond cond) := by
  have hunparen := he.unparen
  unfold Scope.lowerCond
  split
  · next left right pos hc =>
    rw [hc] at hunparen
    exact h.bind (h.lower s (hunparen.inside left (by simp [Expr.children])) _) fun _ ↦
      h.bind (h.lower s (hunparen.inside right (by simp [Expr.children])) _) fun _ ↦ h.pure _
  · exact h.bind (h.lower s he _) fun _ ↦ h.pure _

theorem lowerEffect {e : Expr} (he : e.Everywhere (s.Allows A)) : P (s.lowerEffect e) := by
  have hunparen := he.unparen
  unfold Scope.lowerEffect
  split
  · next recv method args pos hc =>
    rw [hc] at hunparen
    exact h.bind_value (h.lowerCall s hunparen _) fun n ↦ h.emit _ (hunparen.here _ n).1
  · exact h.bind (h.lower s hunparen _) fun _ ↦ h.pure _

section

variable {index : Option Expr} {value : Expr}
  (hi : ∀ i, index = some i → i.Everywhere (s.Allows A)) (hv : value.Everywhere (s.Allows A))

include hv

theorem storeElement {i : Expr} (hi : i.Everywhere (s.Allows A)) (array : Operand) :
    P (s.storeElement array i value) :=
  h.bind (h.lower s hi _) fun _ ↦ h.bind (h.lower s hv _) fun _ ↦ h.emit _ (h.simple _ trivial)

include hi

theorem lowerAssign (target : Ident) : P (s.lowerAssign target index value) := by
  have hvar (dest : Operand) : P (s.assignVar dest index value) := by
    cases index with
    | none => exact h.bind (h.lower s hv _) fun _ ↦ h.emit _ (h.simple _ trivial)
    | some i => exact h.storeElement s hv (hi i rfl) _
  have hfield (name : String) (ty : ValType) : P (s.assignField name ty index value) := by
    cases index with
    | none => exact h.bind (h.lower s hv _) fun _ ↦ h.emit _ (h.simple _ trivial)
    | some i =>
      exact h.bind (h.toTemp s _ fun _ ↦ h.simple _ trivial) fun _ ↦
        h.storeElement s hv (hi i rfl) _
  unfold Scope.lowerAssign
  split
  case h_5 | h_6 => exact h.unsupported ..
  all_goals first | exact hvar _ | exact hfield ..

end

end Lower.Closed

theorem Scope.everywhere_allows_plain (s : Scope) (e : Expr) :
    e.Everywhere (s.Allows Instr.Plain) := by
  refine .of_forall (fun e ↦ ?_) e
  cases e with
  | call recv method args pos => exact fun hint n ↦ ⟨⟨rfl, rfl, nofun⟩, fun _ ↦ ⟨rfl, rfl, nofun⟩⟩
  | int | bool | ident | this | binary | not | paren | index | length | newObject | newArray
  | array => trivial

namespace Lower.Closed

variable {P : {α : Type} → Lower α → Prop} (h : Closed Instr.Plain P) (s : Scope)

include h

theorem lowerExpr (e : Expr) (hint : Option ValType) : P (s.lower e hint) :=
  h.lower s (s.everywhere_allows_plain e) hint

theorem lowerReturn (value : Option Expr) : P (s.lowerReturn value) := by
  cases value with
  | none => exact h.emit _ ⟨rfl, rfl, nofun⟩
  | some e => exact h.bind (h.lowerExpr s ..) fun _ ↦ h.emit _ ⟨rfl, rfl, nofun⟩

mutual

theorem lowerStmt : ∀ stmt, P (s.lowerStmt stmt)
  | .var _ => h.pure _
  | .block body _ => lowerStmts body
  | .ifThen cond body _ =>
    h.ite s _ (h.lowerCond s (s.everywhere_allows_plain cond)) (lowerStmt body) (h.pure _)
  | .ifElse cond body other _ =>
    h.ite s _ (h.lowerCond s (s.everywhere_allows_plain cond)) (lowerStmt body) (lowerStmt other)
  | .while cond body _ =>
    h.loop s _ (h.lowerCond s (s.everywhere_allows_plain cond)) (lowerStmt body)
  | .expr e _ => h.lowerEffect s (s.everywhere_allows_plain e)
  | .assign _ _ value _ =>
    h.lowerAssign s (fun i _ ↦ s.everywhere_allows_plain i) (s.everywhere_allows_plain value) _
  | .return .. => h.lowerReturn s _

theorem lowerStmts : ∀ stmts, P (s.lowerStmts stmts)
  | [] => h.pure _
  | stmt :: rest => h.bind (lowerStmt stmt) fun _ ↦ lowerStmts rest

end

end Lower.Closed

end MiniJava

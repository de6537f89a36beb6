import MiniJava.Proofs.Checking.Accepted
import MiniJava.Proofs.Lowering.Frame
import MiniJava.Proofs.Lowering.Issued

namespace MiniJava

open Tac Lower

namespace Scope

inductive Formed (s : Scope) (loose : String → Prop) (known : List Operand) : Operand → Prop
  | known {x : Operand} : x ∈ known → Formed s loose known x
  | stored {name : String} {x : Operand} : s.storage? name = some x → Formed s loose known x
  | loose {name : String} (t : ValType) : loose name → Formed s loose known (.var name t)
  | elem {a i : Operand} (t : ValType) : Formed s loose known a → Formed s loose known i →
      Formed s loose known (.elem a i t)
  | lit (v : Int32) (t : ValType) : Formed s loose known (.lit v t)
  | this : Formed s loose known (.this s.symbols.className)
  | cls (name : String) : Formed s loose known (.cls name)

theorem Formed.mono {s : Scope} {loose : String → Prop} {known known' : List Operand} {x : Operand}
    (h : s.Formed loose known x) (hk : known ⊆ known') : s.Formed loose known' x := by
  induction h with
  | known hx => exact .known (hk hx)
  | stored hx => exact .stored hx
  | loose t hx => exact .loose t hx
  | elem t _ _ iha ihi => exact .elem t iha ihi
  | lit v t => exact .lit v t
  | this => exact .this
  | cls name => exact .cls name

def Resolves (s : Scope) (loose : String → Prop) : Expr → Prop
  | .ident id => s.binding id.name = .undeclared → loose id.name
  | _ => True

theorem everywhere_resolves_loose {s : Scope} (e : Expr) :
    e.Everywhere (s.Resolves fun _ ↦ True) := by
  refine .of_forall (fun e ↦ ?_) e
  cases e with
  | ident id => exact fun _ ↦ trivial
  | int | bool | this | binary | not | index | length | call | paren | newObject | newArray
  | array => trivial

/-- An expression without undeclared variables has no loose ones. -/
theorem everywhere_resolves {s : Scope} {e : Expr}
    (h : ∀ name pos, .located (.undeclaredVariable name) pos ∉ s.check e) :
    e.Everywhere (s.Resolves fun _ ↦ False) := by
  induction e using Expr.children_induction with
  | step e ih =>
    refine .intro e ?_ fun x hx ↦ ?_
    · cases e with
      | ident id =>
        intro hb
        refine h id.name id.pos ?_
        simp [check, checkIdent, hb]
      | int | bool | this | binary | not | index | length | call | paren | newObject | newArray
      | array => trivial
    · exact ih x hx fun name pos hf ↦ h name pos (check_subset_of_child hx hf)

end Scope

/-- A property of code generation, given the operands that are known before it and those that its
result gives. It holds of all lowering as soon as it holds of its steps, in which operands are made
of known ones. -/
structure Lower.Knowing (s : Scope) (loose : String → Prop)
    (P : {α : Type} → List Operand → Lower α → (α → List Operand) → Prop) : Prop where
  pure {α : Type} {known : List Operand} {gives : α → List Operand} {a : α} :
    (∀ y ∈ gives a, s.Formed loose known y) → P known (pure a) gives
  bind {α β : Type} {known : List Operand} {x : Lower α} {gives : α → List Operand}
    {f : α → Lower β} {gives' : β → List Operand} :
    P known x gives → (∀ a, P (gives a ++ known) (f a) gives') → P known (x >>= f) gives'
  emit {known : List Operand} {i : Instr} : i.label? = none → i.target? = none →
    (∀ y ∈ i.operands, s.Formed loose known y) → P known (Lower.emit i) fun _ ↦ []
  assign {known : List Operand} {stem : String} {ty : ValType} {rhs : Rhs} : stem ∈ tempStems →
    (∀ y ∈ rhs.operands, s.Formed loose known y) →
    P known (s.assignFresh stem ty rhs) fun y ↦ [y]
  unsupported {known : List Operand} (what : String) (pos : Position) :
    P known (Lower.unsupported what pos) fun _ ↦ []
  and {known : List Operand} {left right : Lower Operand} :
    (∀ known, P known left fun y ↦ [y]) → (∀ known, P known right fun y ↦ [y]) →
    P known (s.lowerAnd left right) fun y ↦ [y]
  ite {known : List Operand} {cond : Expr} {body other : Lower Unit} :
    (∀ known, P known (s.lowerCond cond) Cond.operands) → (∀ known, P known body fun _ ↦ []) →
    (∀ known, P known other fun _ ↦ []) → P known (s.lowerIf cond body other) fun _ ↦ []
  loop {known : List Operand} {cond : Expr} {body : Lower Unit} :
    (∀ known, P known (s.lowerCond cond) Cond.operands) → (∀ known, P known body fun _ ↦ []) →
    P known (s.lowerWhile cond body) fun _ ↦ []

namespace Lower.Knowing

variable {s : Scope} {loose : String → Prop}
  {P : {α : Type} → List Operand → Lower α → (α → List Operand) → Prop}
  {known : List Operand}

theorem lowerEach {es : List Expr}
    (hes : ∀ e ∈ es, ∀ hint known, P known (s.lower e hint) fun y ↦ [y]) :
    ∀ x ∈ s.lowerEach es, ∀ hint known, P known (x hint) fun y ↦ [y] := by
  rw [s.lowerEach_eq_map]
  exact List.forall_mem_map.2 hes

variable (h : Knowing s loose P)

include h

theorem toTemp {ty : ValType} {rhs : Rhs} (hr : ∀ y ∈ rhs.operands, s.Formed loose known y) :
    P known (s.toTemp ty rhs) fun y ↦ [y] := by
  rw [s.toTemp_eq_assignFresh]
  exact h.assign (by decide) hr

theorem allocate (ty : ValType) (len : Nat) : P known (s.allocate ty len) fun y ↦ [y] :=
  h.toTemp (List.forall_mem_singleton.2 (.lit ..))

theorem lowerIdent {id : Ident} (hid : s.binding id.name = .undeclared → loose id.name)
    (hint : Option ValType) : P known (s.lowerIdent id hint) fun y ↦ [y] := by
  have hvar {x : Operand} (hx : s.storage? id.name = some x) :
      P known (Pure.pure x : Lower Operand) fun y ↦ [y] :=
    h.pure (List.forall_mem_singleton.2 (.stored hx))
  have hread (ty : ValType) : P known (s.readField id.name ty) fun y ↦ [y] := h.toTemp nofun
  unfold Scope.lowerIdent
  cases hb : s.binding id.name with
  | param | «local» => exact hvar (by simp [Scope.storage?, hb])
  | field | inherited => exact hread _
  | cls => exact h.pure (List.forall_mem_singleton.2 (.cls _))
  | undeclared =>
    exact h.bind (h.unsupported _ _) fun _ ↦
      h.pure (List.forall_mem_singleton.2 (.loose _ (hid hb)))

section

variable {xs : List (Option ValType → Lower Operand)}
  (hxs : ∀ x ∈ xs, ∀ hint known, P known (x hint) fun y ↦ [y])

include hxs

theorem lowerInOrder (hints : List ValType) : P known (Scope.lowerInOrder hints xs) id := by
  induction xs generalizing hints known with
  | nil => exact h.pure nofun
  | cons x xs ih =>
    obtain ⟨hx, hxs⟩ := List.forall_mem_cons.1 hxs
    refine h.bind (hx _ _) fun v ↦ h.bind (ih hxs _) fun vs ↦ h.pure ?_
    exact List.forall_mem_cons.2
      ⟨.known (by simp), fun y hy ↦ .known (List.mem_append_left _ hy)⟩

theorem storeFrom {array : Operand} (ha : array ∈ known) (element : ValType) (i : Nat) :
    P known (Scope.storeFrom array element i xs) fun _ ↦ [] := by
  induction xs generalizing i known with
  | nil => exact h.pure nofun
  | cons x xs ih =>
    obtain ⟨hx, hxs⟩ := List.forall_mem_cons.1 hxs
    refine h.bind (hx _ _) fun v ↦ h.bind (h.emit rfl rfl ?_) fun _ ↦ ih hxs (by simp [ha]) (i + 1)
    exact forall_mem_two.2 ⟨.elem _ (.known (by simp [ha])) (.lit ..), .known (by simp)⟩

theorem pack (ty : ValType) : P known (s.pack ty xs) fun y ↦ [y] := by
  rw [s.pack_eq]
  refine h.bind (h.allocate ty _) fun a ↦ h.bind (h.assign (by decide) ?_) fun x ↦ ?_
  · exact List.forall_mem_singleton.2 (.known (by simp))
  · exact h.bind (h.storeFrom hxs (by simp) _ 0) fun _ ↦
      h.pure (List.forall_mem_singleton.2 (.known (by simp)))

theorem lowerArgs (target : Option Signature) (args : List Expr) :
    P known (s.lowerArgs target args xs) id := by
  unfold Scope.lowerArgs
  simp only
  split
  · exact h.lowerInOrder hxs _
  · refine h.bind (h.lowerInOrder (fun x hx ↦ hxs x (List.mem_of_mem_take hx)) _) fun vs ↦ ?_
    refine h.bind (h.pack (fun x hx ↦ hxs x (List.mem_of_mem_drop hx)) _) fun v ↦ h.pure ?_
    exact List.forall_mem_append.2 ⟨fun y hy ↦ .known (by simp [hy]),
      List.forall_mem_singleton.2 (.known (by simp))⟩

theorem lowerCallWith {loweredRecv : Lower Operand} {recv : Expr}
    (hr : P known loweredRecv fun y ↦ [y]) (method : Ident) (args : List Expr)
    (hint : Option ValType) :
    P known (s.lowerCallWith recv method args hint loweredRecv xs) fun k ↦ k.kind.operands := by
  unfold Scope.lowerCallWith
  simp only
  cases s.className? recv with
  | some cls =>
    exact h.bind (h.lowerArgs hxs _ _) fun vs ↦
      h.pure fun y hy ↦ .known (List.mem_append_left _ hy)
  | none =>
    refine h.bind hr fun r ↦ h.bind (h.lowerArgs hxs _ _) fun vs ↦ h.pure ?_
    exact List.forall_mem_cons.2
      ⟨.known (by simp), fun y hy ↦ .known (List.mem_append_left _ hy)⟩

end

theorem lowerNewObject (cls : Ident) (pos : Position) :
    P known (s.lowerNewObject cls pos) fun y ↦ [y] := by
  have hcreate (known : List Operand) : P known (s.createObject cls.name) fun y ↦ [y] := by
    have hnew : ∀ y ∈ (Rhs.call ⟨.new cls.name, .cls cls.name⟩).operands,
        s.Formed loose known y := nofun
    refine h.bind (h.toTemp hnew) fun x ↦ ?_
    refine h.bind (h.emit rfl rfl (List.forall_mem_singleton.2 (.known (by simp)))) fun _ ↦ ?_
    exact h.pure (List.forall_mem_singleton.2 (.known (by simp)))
  rw [s.lowerNewObject_eq]
  split
  · exact hcreate _
  · exact h.bind (h.unsupported _ _) fun _ ↦ hcreate _

theorem lower {e : Expr} (he : e.Everywhere (s.Resolves loose)) (hint : Option ValType)
    (known : List Operand) : P known (s.lower e hint) fun y ↦ [y] := by
  induction e using Expr.children_induction generalizing hint known with
  | step e ih =>
    have ih (x : Expr) (hx : x ∈ e.children) := ih x hx (he.inside x hx)
    cases e with
    | int | bool => exact h.pure (List.forall_mem_singleton.2 (.lit ..))
    | this pos => exact h.pure (List.forall_mem_singleton.2 .this)
    | ident id => exact h.lowerIdent he.here hint
    | paren e pos => exact ih e (List.mem_singleton_self e) hint known
    | binary op left right pos =>
      obtain ⟨hl, hr⟩ := forall_mem_two.1 ih
      have hboth : ∀ l r known, ∀ y ∈ [l, r], s.Formed loose ([r] ++ ([l] ++ known)) y :=
        fun l r known ↦ forall_mem_two.2 ⟨.known (by simp), .known (by simp)⟩
      cases op with
      | arith op =>
        exact h.bind (hl _ _) fun l ↦ h.bind (hr _ _) fun r ↦ h.toTemp (hboth l r known)
      | less =>
        exact h.bind (hl _ _) fun l ↦ h.bind (hr _ _) fun r ↦ h.toTemp (hboth l r known)
      | and => exact h.and (hl _) (hr _)
    | not e pos | length e pos | newArray e pos =>
      exact h.bind (ih e (List.mem_singleton_self e) _ _) fun v ↦
        h.toTemp (List.forall_mem_singleton.2 (.known List.mem_cons_self))
    | index base idx pos =>
      obtain ⟨hb, hi⟩ := forall_mem_two.1 ih
      exact h.bind (hb _ _) fun a ↦ h.bind (hi _ _) fun i ↦ h.toTemp
        (List.forall_mem_singleton.2 (.elem _ (.known (by simp)) (.known (by simp))))
    | call recv method args pos =>
      obtain ⟨hr, hargs⟩ := List.forall_mem_cons.1 ih
      exact h.bind (h.lowerCallWith (lowerEach hargs) (hr _ _) _ _ _) fun k ↦
        h.toTemp fun y hy ↦ .known (List.mem_append_left _ hy)
    | newObject cls pos => exact h.lowerNewObject cls pos
    | array elems pos =>
      refine h.bind (h.allocate _ _) fun a ↦ ?_
      exact h.bind (h.storeFrom (lowerEach ih) (by simp) _ 0) fun _ ↦
        h.pure (List.forall_mem_singleton.2 (.known (by simp)))

theorem lowerCall {recv : Expr} {method : Ident} {args : List Expr} {pos : Position}
    (he : (Expr.call recv method args pos).Everywhere (s.Resolves loose)) (hint : Option ValType) :
    P known (s.lowerCall recv method args hint) fun k ↦ k.kind.operands := by
  obtain ⟨hr, hargs⟩ := List.forall_mem_cons.1 he.inside
  exact h.lowerCallWith (lowerEach fun x hx ↦ h.lower (hargs x hx)) (h.lower hr _ _) _ _ _

theorem lowerCond {cond : Expr} (hc : cond.Everywhere (s.Resolves loose))
    (known : List Operand) : P known (s.lowerCond cond) Cond.operands := by
  rcases s.lowerCond_eq cond with ⟨left, right, pos, hless, heq⟩ | heq
  · obtain ⟨hl, hr⟩ := forall_mem_two.1 (hless ▸ hc.unparen).inside
    rw [heq]
    refine h.bind (h.lower hl _ _) fun l ↦ h.bind (h.lower hr _ _) fun r ↦ h.pure ?_
    exact forall_mem_two.2 ⟨.known (by simp), .known (by simp)⟩
  · rw [heq]
    exact h.bind (h.lower hc _ _) fun v ↦
      h.pure (List.forall_mem_singleton.2 (.known List.mem_cons_self))

theorem lowerEffect {e : Expr} (he : e.Everywhere (s.Resolves loose)) :
    P known (s.lowerEffect e) fun _ ↦ [] := by
  have hunparen := he.unparen
  unfold Scope.lowerEffect
  split
  · next recv method args pos hcall =>
    rw [hcall] at hunparen
    exact h.bind (h.lowerCall hunparen _) fun k ↦
      h.emit rfl rfl fun y hy ↦ .known (List.mem_append_left _ hy)
  · exact h.bind (h.lower hunparen _ _) fun _ ↦ h.pure nofun

theorem storeElement {array : Operand} (ha : s.Formed loose known array) {index value : Expr}
    (hi : index.Everywhere (s.Resolves loose)) (hv : value.Everywhere (s.Resolves loose)) :
    P known (s.storeElement array index value) fun _ ↦ [] := by
  refine h.bind (h.lower hi _ _) fun i ↦ h.bind (h.lower hv _ _) fun v ↦ h.emit rfl rfl ?_
  refine forall_mem_two.2 ⟨.elem _ (ha.mono fun y hy ↦ ?_) (.known (by simp)), .known (by simp)⟩
  simp [hy]

theorem lowerAssign (target : Ident) {index : Option Expr} {value : Expr}
    (hi : ∀ i ∈ index, i.Everywhere (s.Resolves loose)) (hv : value.Everywhere (s.Resolves loose)) :
    P known (s.lowerAssign target index value) fun _ ↦ [] := by
  rw [Scope.lowerAssign_eq]
  split
  · next dest hdest =>
    cases index with
    | none =>
      exact h.bind (h.lower hv _ _) fun v ↦
        h.emit rfl rfl (forall_mem_two.2 ⟨.stored hdest, .known (by simp)⟩)
    | some i => exact h.storeElement (.stored hdest) (hi i rfl) hv
  · next ty _ _ =>
    cases index with
    | none =>
      exact h.bind (h.lower hv _ _) fun v ↦
        h.emit rfl rfl (List.forall_mem_singleton.2 (.known (by simp)))
    | some i =>
      have hread : P known (s.readField target.name ty) fun y ↦ [y] := h.toTemp nofun
      exact h.bind hread fun a ↦ h.storeElement (.known (by simp)) (hi i rfl) hv
  · exact h.unsupported _ _

theorem lowerReturn {value : Option Expr} (hv : ∀ e ∈ value, e.Everywhere (s.Resolves loose)) :
    P known (s.lowerReturn value) fun _ ↦ [] := by
  cases value with
  | none => exact h.emit rfl rfl nofun
  | some e =>
    exact h.bind (h.lower (hv e rfl) _ _) fun v ↦
      h.emit rfl rfl (List.forall_mem_singleton.2 (.known (by simp)))

mutual

theorem lowerStmt : ∀ {stmt : Stmt}, (∀ e ∈ stmt.exprs, e.Everywhere (s.Resolves loose)) →
    ∀ known, P known (s.lowerStmt stmt) fun _ ↦ []
  | .var _, _, _ => h.pure nofun
  | .block .., hs, known => lowerStmts hs known
  | .ifThen .., hs, _ =>
    have ⟨hc, hb⟩ := List.forall_mem_cons.1 hs
    h.ite (h.lowerCond hc) (lowerStmt hb) fun _ ↦ h.pure nofun
  | .ifElse .., hs, _ =>
    have ⟨hc, hrest⟩ := List.forall_mem_cons.1 hs
    have ⟨hb, ho⟩ := List.forall_mem_append.1 hrest
    h.ite (h.lowerCond hc) (lowerStmt hb) (lowerStmt ho)
  | .while .., hs, _ =>
    have ⟨hc, hb⟩ := List.forall_mem_cons.1 hs
    h.loop (h.lowerCond hc) (lowerStmt hb)
  | .expr .., hs, _ => h.lowerEffect (List.forall_mem_singleton.1 hs)
  | .assign target _ _ _, hs, _ =>
    have ⟨hi, hv⟩ := List.forall_mem_append.1 hs
    h.lowerAssign target (fun i hi' ↦ hi i (Option.mem_toList.2 hi'))
      (List.forall_mem_singleton.1 hv)
  | .return .., hs, _ => h.lowerReturn fun e he ↦ hs e (Option.mem_toList.2 he)

theorem lowerStmts : ∀ {stmts : List Stmt},
    (∀ e ∈ Stmt.exprsAll stmts, e.Everywhere (s.Resolves loose)) →
      ∀ known, P known (s.lowerStmts stmts) fun _ ↦ []
  | [], _, _ => h.pure nofun
  | _ :: _, hs, _ =>
    have ⟨hfirst, hrest⟩ := List.forall_mem_append.1 hs
    h.bind (lowerStmt hfirst _) fun _ ↦ lowerStmts hrest _

end

end Lower.Knowing

end MiniJava

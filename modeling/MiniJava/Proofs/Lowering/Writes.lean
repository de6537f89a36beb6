import MiniJava.Proofs.Lowering.Blocks
import MiniJava.Proofs.Lowering.Frame
import MiniJava.Proofs.Tree.Subterms

namespace MiniJava

open Tac Lower

def Tac.Operand.root? : Operand → Option String
  | .var x _ | .param _ x _ => some x
  | .elem array _ _ => array.root?
  | .lit .. | .this _ | .cls _ => none

def Tac.Instr.written? : Instr → Option String
  | .assign dest _ _ => dest.root?
  | .putField .. | .call _ | .branch .. | .goto _ | .label _ | .return .. | .invalid _ => none

def Lower.MadeBetween (a b : Nat) (x : String) : Prop :=
  ∃ stem ∈ tempStems, ∃ k, a ≤ k ∧ k < b ∧ x = numbered stem k

theorem Lower.MadeBetween.mono {a b c d : Nat} {x : String} (h : MadeBetween a b x) (ha : c ≤ a)
    (hb : b ≤ d) : MadeBetween c d x := by
  obtain ⟨stem, hs, k, hle, hlt, he⟩ := h
  exact ⟨stem, hs, k, Nat.le_trans ha hle, Nat.lt_of_lt_of_le hlt hb, he⟩

theorem Lower.MadeBetween.ne {a b c d : Nat} {x y : String} (hx : MadeBetween a b x)
    (hy : MadeBetween c d y) (h : b ≤ c) : x ≠ y := by
  obtain ⟨stem, hs, j, -, hj, rfl⟩ := hx
  obtain ⟨stem', hs', k, hk, -, rfl⟩ := hy
  intro he
  have hjk := ((numbered_inj (plain_of_mem_tempStems hs) (plain_of_mem_tempStems hs')).1 he).2
  omega

/-- If the known names were made from some number on, then all that is written is a name that was
made from that number on, and so is what the result gives. -/
def Lower.Writes {α : Type} (known : List String) (x : Lower α) (gives : α → List String) : Prop :=
  ∀ a n, a ≤ n.temp → (∀ y ∈ known, MadeBetween a n.temp y) →
    n.temp ≤ (x n).next.temp ∧
      (∀ i ∈ (x n).code, ∀ y ∈ i.written?, MadeBetween a (x n).next.temp y) ∧
      ∀ y ∈ gives (x n).value, MadeBetween a (x n).next.temp y

namespace Lower.Writes

variable {α β : Type} {known : List String} {x : Lower α} {gives : α → List String}

theorem pure {v : α} (h : gives v ⊆ known) : Writes known (Pure.pure v) gives :=
  fun _ _ _ hk ↦ ⟨Nat.le_refl _, nofun, fun y hy ↦ hk y (h hy)⟩

theorem bind {f : α → Lower β} {gives' : β → List String} (hx : Writes known x gives)
    (hf : ∀ v, Writes (gives v ++ known) (f v) gives') : Writes known (x >>= f) gives' := by
  intro a n ha hk
  obtain ⟨hn, hcode, hvalue⟩ := hx a n ha hk
  have hknown : ∀ y ∈ gives (x n).value ++ known, MadeBetween a (x n).next.temp y :=
    List.forall_mem_append.2 ⟨hvalue, fun y hy ↦ (hk y hy).mono (Nat.le_refl a) hn⟩
  obtain ⟨hn', hcode', hvalue'⟩ := hf _ a (x n).next (Nat.le_trans ha hn) hknown
  refine ⟨Nat.le_trans hn hn', List.forall_mem_append.2 ⟨?_, hcode'⟩, hvalue'⟩
  exact fun i hi y hy ↦ (hcode i hi y hy).mono (Nat.le_refl a) hn'

theorem emit {i : Instr} (h : ∀ y ∈ i.written?, y ∈ known) :
    Writes known (Lower.emit i) fun _ ↦ [] := fun _ _ _ hk ↦
  ⟨Nat.le_refl _, List.forall_mem_singleton.2 fun y hy ↦ hk y (h y hy), nofun⟩

theorem silent {i : Instr} (h : i.written? = none) : Writes known (Lower.emit i) fun _ ↦ [] :=
  emit (h ▸ nofun)

theorem freshName {stem : String} (hs : stem ∈ tempStems) (taken : List String) :
    Writes known (Lower.freshName taken stem) fun x ↦ [x] := fun _ n ha _ ↦ by
  have hle := le_freshNumber taken stem n.temp
  exact ⟨Nat.le_succ_of_le hle, nofun, List.forall_mem_singleton.2
    ⟨stem, hs, _, Nat.le_trans ha hle, Nat.lt_succ_self _, rfl⟩⟩

theorem freshLabel : Writes known Lower.freshLabel fun _ ↦ [] :=
  fun _ _ _ _ ↦ ⟨Nat.le_refl _, nofun, nofun⟩

theorem unsupported (what : String) (pos : Position) :
    Writes known (Lower.unsupported what pos) fun _ ↦ [] :=
  fun _ _ _ _ ↦ ⟨Nat.le_refl _, List.forall_mem_singleton.2 nofun, nofun⟩

/-- What is not made of known names may be forgotten. -/
theorem forget (hx : Writes known x gives) : Writes known x fun _ ↦ [] := fun a n ha hk ↦ by
  obtain ⟨hn, hcode, -⟩ := hx a n ha hk
  exact ⟨hn, hcode, nofun⟩

end Lower.Writes

namespace Scope

variable {s : Scope} {known : List String}

theorem writes_freshTemp (ty : ValType) :
    Writes known (s.freshTemp ty) fun y ↦ y.root?.toList :=
  (Writes.freshName (by decide) _).bind fun _ ↦ .pure (by simp [Operand.root?])

theorem writes_toTemp (ty : ValType) (rhs : Rhs) :
    Writes known (s.toTemp ty rhs) fun y ↦ y.root?.toList := by
  refine (writes_freshTemp ty).bind fun t ↦ (Writes.emit fun y hy ↦ ?_).bind fun _ ↦ .pure (by simp)
  exact List.mem_append_left _ (Option.mem_toList.2 hy)

theorem writes_lowerIdent (id : Ident) (hint : Option ValType) :
    Writes known (s.lowerIdent id hint) fun _ ↦ [] := by
  unfold lowerIdent
  cases s.binding id.name with
  | param | «local» | cls => exact .pure nofun
  | field | inherited => exact (writes_toTemp _ _).forget
  | undeclared => exact (Writes.unsupported _ _).bind fun _ ↦ .pure nofun

def WritesEach (xs : List (Option ValType → Lower Operand)) : Prop :=
  ∀ x ∈ xs, ∀ hint known, Writes known (x hint) fun _ ↦ []

section

variable {xs : List (Option ValType → Lower Operand)} (h : WritesEach xs)

include h

theorem writes_lowerInOrder (hints : List ValType) :
    Writes known (lowerInOrder hints xs) fun _ ↦ [] := by
  induction xs generalizing hints known with
  | nil => exact .pure nofun
  | cons x xs ih =>
    obtain ⟨hx, hxs⟩ := List.forall_mem_cons.1 h
    exact (hx _ _).bind fun _ ↦ (ih hxs _).bind fun _ ↦ .pure nofun

theorem writes_storeFrom {array : Operand} (ha : array.root?.toList ⊆ known) (element : ValType)
    (i : Nat) : Writes known (storeFrom array element i xs) fun _ ↦ [] := by
  induction xs generalizing i known with
  | nil => exact .pure nofun
  | cons x xs ih =>
    obtain ⟨hx, hxs⟩ := List.forall_mem_cons.1 h
    refine (hx _ _).bind fun v ↦ (Writes.emit fun y hy ↦ ?_).bind fun _ ↦ ih hxs ?_ (i + 1)
    · exact ha (Option.mem_toList.2 hy)
    · exact ha

theorem writes_pack (ty : ValType) : Writes known (s.pack ty xs) fun _ ↦ [] := by
  refine (writes_toTemp _ _).bind fun a ↦ (Writes.freshName (by decide) _).bind fun x ↦ ?_
  refine (Writes.emit fun y hy ↦ ?_).bind fun _ ↦
    (writes_storeFrom h ?_ _ 0).bind fun _ ↦ .pure nofun
  · exact Option.some.inj hy ▸ List.mem_cons_self
  · exact List.cons_subset.2 ⟨List.mem_cons_self, nofun⟩

theorem writes_lowerArgs (target : Option Signature) (args : List Expr) :
    Writes known (s.lowerArgs target args xs) fun _ ↦ [] := by
  unfold lowerArgs
  simp only
  split
  · exact writes_lowerInOrder h _
  · exact (writes_lowerInOrder (fun x hx ↦ h x (List.mem_of_mem_take hx)) _).bind fun _ ↦
      (writes_pack (fun x hx ↦ h x (List.mem_of_mem_drop hx)) _).bind fun _ ↦ .pure nofun

end

theorem writes_lowerAnd {left right : Lower Operand}
    (hl : ∀ known, Writes known left fun _ ↦ []) (hr : ∀ known, Writes known right fun _ ↦ []) :
    Writes known (s.lowerAnd left right) fun _ ↦ [] := by
  refine (hl _).bind fun _ ↦ Writes.freshLabel.bind fun _ ↦ (writes_freshTemp _).bind fun t ↦ ?_
  have hresult {known : List String} (ht : t.root?.toList ⊆ known) (v : Operand) :
      Writes known (Lower.emit (.assign t .bool (.value v))) fun _ ↦ [] :=
    .emit fun y hy ↦ ht (Option.mem_toList.2 hy)
  refine (Writes.silent rfl).bind fun _ ↦ (hresult (by simp) _).bind fun _ ↦ ?_
  refine (Writes.silent rfl).bind fun _ ↦ (Writes.silent rfl).bind fun _ ↦ (hr _).bind fun r ↦ ?_
  exact (hresult (by simp) _).bind fun _ ↦ (Writes.silent rfl).bind fun _ ↦ .pure nofun

theorem writes_lowerNewObject (cls : Ident) (pos : Position) :
    Writes known (s.lowerNewObject cls pos) fun _ ↦ [] := by
  have hcreate (known : List String) : Writes known (s.createObject cls.name) fun _ ↦ [] :=
    (writes_toTemp _ _).bind fun _ ↦ (Writes.silent rfl).bind fun _ ↦ .pure nofun
  rw [s.lowerNewObject_eq]
  split
  · exact hcreate _
  · exact (Writes.unsupported _ _).bind fun _ ↦ hcreate _

theorem writes_lowerEach {es : List Expr}
    (h : ∀ e ∈ es, ∀ hint known, Writes known (s.lower e hint) fun _ ↦ []) :
    WritesEach (s.lowerEach es) := by
  rw [s.lowerEach_eq_map]
  exact List.forall_mem_map.2 h

/-- The code of an expression writes nothing but the temporaries that are made for it. -/
theorem writes_lower (e : Expr) (hint : Option ValType) (known : List String) :
    Writes known (s.lower e hint) fun _ ↦ [] := by
  induction e using Expr.children_induction generalizing hint known with
  | step e ih =>
    cases e with
    | int | bool | this => exact .pure nofun
    | ident id => exact writes_lowerIdent id hint
    | paren e pos => exact ih e (List.mem_singleton_self e) hint known
    | binary op left right pos =>
      have hl := ih left (by simp [Expr.children])
      have hr := ih right (by simp [Expr.children])
      cases op with
      | arith | less =>
        exact (hl _ _).bind fun _ ↦ (hr _ _).bind fun _ ↦ (writes_toTemp _ _).forget
      | and => exact writes_lowerAnd (hl _) (hr _)
    | not e pos | length e pos | newArray e pos =>
      exact (ih e (List.mem_singleton_self e) _ _).bind fun _ ↦ (writes_toTemp _ _).forget
    | index base idx pos =>
      have hb := ih base (by simp [Expr.children])
      have hi := ih idx (by simp [Expr.children])
      exact (hb _ _).bind fun _ ↦ (hi _ _).bind fun _ ↦ (writes_toTemp _ _).forget
    | call recv method args pos =>
      have hr := ih recv List.mem_cons_self
      have hargs (target : Option Signature) (known : List String) :
          Writes known (s.lowerArgs target args (s.lowerEach args)) fun _ ↦ [] :=
        writes_lowerArgs (writes_lowerEach fun e he ↦ ih e (List.mem_cons_of_mem recv he)) target
          args
      have hcall : Writes known (s.lowerCall recv method args hint) fun _ ↦ [] := by
        unfold lowerCall lowerCallWith
        simp only
        cases s.className? recv with
        | some cls => exact (hargs _ _).bind fun _ ↦ .pure nofun
        | none => exact (hr _ _).bind fun _ ↦ (hargs _ _).bind fun _ ↦ .pure nofun
      exact hcall.bind fun _ ↦ (writes_toTemp _ _).forget
    | newObject cls pos => exact writes_lowerNewObject cls pos
    | array elems pos =>
      exact (writes_toTemp _ _).bind fun _ ↦
        (writes_storeFrom (writes_lowerEach ih) (by simp) _ 0).bind fun _ ↦ .pure nofun

end Scope

end MiniJava

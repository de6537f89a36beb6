import Mathlib.Data.List.Basic
import Mathlib.Tactic.ByContra
import MiniJava.Check.Stmt
import MiniJava.Proofs.Tree.Subterms

namespace MiniJava.Scope

variable {s : Scope} {e : Expr}

theorem check_unparen (e : Expr) : s.check e.unparen = s.check e := by
  induction e using Expr.children_induction with
  | step e ih =>
    cases e with
    | paren e pos => exact ih e (List.mem_singleton_self e)
    | int | bool | ident | this | binary | not | index | length | call | newObject | newArray
    | array => rfl

theorem checkAll_eq_flatMap (es : List Expr) : s.checkAll es = es.flatMap s.check := by
  induction es with
  | nil => rfl
  | cons e es ih => rw [checkAll, ih, List.flatMap_cons]

theorem check_subset_checkElements {es : List Expr} (first : Option Ty) :
    ∀ e ∈ es, s.check e ⊆ s.checkElements first es := by
  induction es generalizing first with
  | nil => nofun
  | cons e es ih =>
    rw [checkElements, List.append_assoc]
    refine List.forall_mem_cons.2 ⟨List.subset_append_left _ _, fun x hx ↦ ?_⟩
    exact fun f hf ↦ List.mem_append_right _ (List.mem_append_right _ (ih _ x hx hf))

theorem check_of_named {cls : String} (h : s.className? e = some cls) : s.check e = [] := by
  induction e using Expr.children_induction with
  | step e ih =>
    cases e with
    | int | bool | this | binary | not | index | length | call | newObject | newArray | array =>
      exact absurd h nofun
    | ident id =>
      obtain ⟨hbind, -⟩ : s.binding id.name = .cls ∧ id.name = cls := by
        simpa [className?, Expr.unparen] using h
      simp [check, checkIdent, hbind]
    | paren e pos => exact ih e (List.mem_singleton_self e) h

/-- The findings of a part of an expression are among those of the whole. -/
theorem check_subset_of_child {x : Expr} (hx : x ∈ e.children) : s.check x ⊆ s.check e := by
  cases e with
  | int | bool | ident | this | newObject => exact absurd hx List.not_mem_nil
  | array elems pos => exact check_subset_checkElements none x hx
  | binary op left right pos | index left right pos =>
    rcases List.mem_pair.1 hx with rfl | rfl
    · exact fun f hf ↦ by simp [check, hf]
    · exact fun f hf ↦ by simp [check, hf]
  | not e pos | length e pos | newArray e pos | paren e pos =>
    obtain rfl := List.mem_singleton.1 hx
    exact fun f hf ↦ by simp [check, hf]
  | call recv method args pos =>
    rcases List.mem_cons.1 hx with rfl | hx
    · cases hnamed : s.className? x with
      | some cls =>
        rw [check_of_named hnamed]
        exact List.nil_subset _
      | none => exact fun f hf ↦ by simp [check, hnamed, hf]
    · intro f hf
      rw [check, checkAll_eq_flatMap]
      exact List.mem_append_left _ (List.mem_append_right _ (List.mem_flatMap.2 ⟨x, hx, hf⟩))

theorem check_child {x : Expr} (h : s.check e = []) (hx : x ∈ e.children) : s.check x = [] :=
  List.eq_nil_of_subset_nil (h ▸ check_subset_of_child hx)

theorem accepts_of_refuse {accepts : Ty → Bool} {fault : String → Fault} {pos : Position}
    {ty : Ty} (h : s.refuse accepts fault e pos = []) (ht : s.typing e = .known ty) :
    accepts ty = true := by
  by_contra hno
  simp [refuse, ht, Typing.violation, hno] at h

def Flat (s : Scope) : Expr → Prop
  | .array (e :: _) _ => ∀ ty, s.typing e = .known ty → ty.isArray = false
  | _ => True

def typeSource? (s : Scope) : Expr → Option Expr
  | .paren e _ | .index e _ _ | .array (e :: _) _ => some e
  | .call recv _ _ _ => if (s.className? recv).isSome then none else some recv
  | .int .. | .bool .. | .ident _ | .this _ | .binary .. | .not .. | .length .. | .newObject ..
  | .newArray .. | .array [] _ => none

inductive Origin (s : Scope) (x : Expr) : Expr → Prop
  | here : s.Origin x x
  | source {e c : Expr} : s.typeSource? e = some c → s.Origin x c → s.Origin x e

/-- An expression without a type, although the part that it takes its type from has one. -/
structure Untyped (s : Scope) (e : Expr) : Prop where
  unknown : s.typing e = .unknown
  source : ∀ c, s.typeSource? e = some c → s.typing c ≠ .unknown

/-- The report of an expression that has no type of its own. -/
inductive Blames (s : Scope) : Expr → Finding → Prop
  | name (id : Ident) : s.Blames (.ident id) (.located (.undeclaredVariable id.name) id.pos)
  | base {base idx : Expr} {pos : Position} (ty : Ty) : s.typing base = .known ty →
      s.Blames (.index base idx pos) (.located (.notAnArray ty.text) base.pos)
  | call {recv : Expr} {method : Ident} {args : List Expr} {pos : Position} (receiver : String) :
      s.receiverText? recv = some receiver →
        s.Blames (.call recv method args pos) (.located (.unresolvedCall receiver method.name) pos)

theorem mem_children_of_typeSource {c : Expr} (h : s.typeSource? e = some c) : c ∈ e.children := by
  cases e with
  | int | bool | ident | this | binary | not | length | newObject | newArray => exact absurd h nofun
  | paren e pos | index e idx pos =>
    obtain rfl := Option.some.inj h
    exact List.mem_cons_self
  | call recv method args pos =>
    obtain ⟨-, hrecv⟩ := Option.ite_none_left_eq_some.1 h
    obtain rfl := Option.some.inj hrecv
    exact List.mem_cons_self
  | array elems pos =>
    cases elems with
    | nil => exact absurd h nofun
    | cons e es =>
      obtain rfl := Option.some.inj h
      exact List.mem_cons_self

theorem Origin.check_subset {x : Expr} (h : s.Origin x e) : s.check x ⊆ s.check e := by
  induction h with
  | here => exact List.Subset.refl _
  | source hs _ ih =>
    exact List.Subset.trans ih (check_subset_of_child (mem_children_of_typeSource hs))

theorem Origin.of_everywhere {P : Expr → Prop} {x : Expr} (h : s.Origin x e)
    (hp : e.Everywhere P) : P x := by
  induction h with
  | here => exact hp.here
  | source hs _ ih => exact ih (hp.inside _ (mem_children_of_typeSource hs))

/-- Whatever has no type takes it from something that loses it. -/
theorem exists_origin (h : s.typing e = .unknown) : ∃ x, s.Origin x e ∧ s.Untyped x := by
  induction e using Expr.children_induction with
  | step e ih =>
    by_cases hsource : ∃ c, s.typeSource? e = some c ∧ s.typing c = .unknown
    · obtain ⟨c, hc, hunknown⟩ := hsource
      obtain ⟨x, hx, huntyped⟩ := ih c (mem_children_of_typeSource hc) hunknown
      exact ⟨x, .source hc hx, huntyped⟩
    · exact ⟨e, .here, h, fun c hc hunknown ↦ hsource ⟨c, hc, hunknown⟩⟩

/-- A call without a type is on something that has a name to report it by. -/
theorem exists_receiverText {recv : Expr} {method : String}
    (h : s.callTyping recv method = .unknown)
    (hrecv : s.className? recv = none → s.typing recv ≠ .unknown) :
    ∃ receiver, s.receiverText? recv = some receiver := by
  unfold receiverText?
  cases hnamed : s.className? recv with
  | some cls => exact ⟨cls, rfl⟩
  | none =>
    cases ht : s.typing recv with
    | unknown => exact absurd ht (hrecv hnamed)
    | foreign => simp [callTyping, receiverClass, dispatch, hnamed, ht] at h
    | known ty => exact ⟨ty.text, rfl⟩

/-- The checker reports what loses its type, but for array literals that hold arrays. -/
theorem Untyped.reported (h : s.Untyped e) (hf : s.Flat e) : ∃ f ∈ s.check e, s.Blames e f := by
  obtain ⟨htyping, hsource⟩ := h
  cases e with
  | int | bool | this | binary | not | length | newObject | newArray => exact absurd htyping nofun
  | paren e pos => exact absurd htyping (hsource e rfl)
  | ident id =>
    have hb : s.binding id.name = .undeclared := by
      simp only [typing, identTyping] at htyping
      cases hb : s.binding id.name with
      | undeclared => rfl
      | param | «local» | field | cls | inherited => exact absurd (hb ▸ htyping) nofun
    exact ⟨_, by simp [check, checkIdent, hb], .name id⟩
  | index base idx pos =>
    cases ht : s.typing base with
    | unknown => exact absurd ht (hsource base rfl)
    | foreign => simp [typing, ht] at htyping
    | known ty =>
      cases harray : ty.isArray with
      | true => simp [typing, ht, Ty.element?, harray] at htyping
      | false =>
        refine ⟨_, ?_, .base ty ht⟩
        simp [check, checkBase, refuse, ht, Typing.violation, harray]
  | call recv method args pos =>
    have hcall : s.callTyping recv method.name = .unknown := htyping
    have hrecv (hnamed : s.className? recv = none) : s.typing recv ≠ .unknown :=
      hsource recv (by simp [typeSource?, hnamed])
    obtain ⟨receiver, hreceiver⟩ := exists_receiverText hcall hrecv
    refine ⟨_, ?_, .call receiver hreceiver⟩
    simp [check, checkCall, hcall, hreceiver]
  | array elems pos =>
    cases elems with
    | nil => exact absurd htyping nofun
    | cons e es =>
      cases ht : s.typing e with
      | unknown => exact absurd ht (hsource e rfl)
      | foreign => simp [typing, ht] at htyping
      | known ty => simp [typing, ht, hf ty ht] at htyping

/-- Whatever has no type has been reported, but for array literals that hold arrays. -/
theorem typing_ne_unknown (h : s.check e = []) (hf : e.Everywhere s.Flat) :
    s.typing e ≠ .unknown := by
  intro hunknown
  obtain ⟨x, hx, huntyped⟩ := exists_origin hunknown
  obtain ⟨f, hreport, -⟩ := huntyped.reported (hx.of_everywhere hf)
  have hmem : f ∈ s.check e := hx.check_subset hreport
  rw [h] at hmem
  exact List.not_mem_nil hmem

def Resolved (s : Scope) : Expr → Prop
  | .call recv method _ _ => s.symbols.method? method.name ≠ none → s.typing recv ≠ .unknown
  | _ => True

theorem everywhere_resolved (h : s.check e = []) (hf : e.Everywhere s.Flat) :
    e.Everywhere s.Resolved := by
  induction e using Expr.children_induction with
  | step e ih =>
    refine .intro e ?_ fun x hx ↦ ?_
    · cases e with
      | call recv method args pos =>
        exact fun _ ↦ typing_ne_unknown (check_child h List.mem_cons_self)
          (hf.inside recv List.mem_cons_self)
      | int | bool | ident | this | binary | not | index | length | paren | newObject | newArray
      | array => trivial
    · exact ih x hx (check_child h hx) (hf.inside x hx)

mutual

/-- The findings of the expressions in a statement are among those of the statement. -/
theorem check_subset_checkStmt {m : Signature} (hm : s.method = some m) :
    ∀ stmt : Stmt, ∀ e ∈ stmt.exprs, s.check e ⊆ s.checkStmt stmt
  | .var _ => nofun
  | .block body _ => check_subset_checkStmts hm body
  | .ifThen cond body _ | .while cond body _ => by
    refine List.forall_mem_cons.2 ⟨fun f hf ↦ by simp [checkStmt, checkCondition, hf], ?_⟩
    intro e he f hf
    exact List.mem_append_right _ (check_subset_checkStmt hm body e he hf)
  | .ifElse cond body other _ => by
    refine List.forall_mem_cons.2 ⟨fun f hf ↦ by simp [checkStmt, checkCondition, hf],
      List.forall_mem_append.2 ⟨fun e he f hf ↦ ?_, fun e he f hf ↦ ?_⟩⟩
    · exact List.mem_append_left _
        (List.mem_append_right _ (check_subset_checkStmt hm body e he hf))
    · exact List.mem_append_right _ (check_subset_checkStmt hm other e he hf)
  | .expr e _ => List.forall_mem_singleton.2 (List.Subset.refl _)
  | .assign target index value pos => by
    refine List.forall_mem_append.2 ⟨fun i hi f hf ↦ ?_, List.forall_mem_singleton.2 ?_⟩
    · obtain rfl := Option.mem_toList.1 hi
      simp [checkStmt, hf]
    · exact fun f hf ↦ by simp [checkStmt, hf]
  | .return none _ => nofun
  | .return (some e) pos =>
    List.forall_mem_singleton.2 fun f hf ↦ by simp [checkStmt, checkReturn, hm, hf]

theorem check_subset_checkStmts {m : Signature} (hm : s.method = some m) :
    ∀ stmts : List Stmt, ∀ e ∈ Stmt.exprsAll stmts, s.check e ⊆ s.checkStmts stmts
  | [] => nofun
  | stmt :: rest => by
    refine List.forall_mem_append.2 ⟨fun e he f hf ↦ ?_, fun e he f hf ↦ ?_⟩
    · exact List.mem_append_left _ (check_subset_checkStmt hm stmt e he hf)
    · exact List.mem_append_right _ (check_subset_checkStmts hm rest e he hf)

end

theorem check_exprs {m : Signature} (hm : s.method = some m) {stmt : Stmt}
    (h : s.checkStmt stmt = []) : ∀ e ∈ stmt.exprs, s.check e = [] :=
  fun e he ↦ List.eq_nil_of_subset_nil (h ▸ check_subset_checkStmt hm stmt e he)

theorem check_exprsAll {m : Signature} (hm : s.method = some m) {stmts : List Stmt}
    (h : s.checkStmts stmts = []) : ∀ e ∈ Stmt.exprsAll stmts, s.check e = [] :=
  fun e he ↦ List.eq_nil_of_subset_nil (h ▸ check_subset_checkStmts hm stmts e he)

end MiniJava.Scope

import MiniJava.Check.Program
import MiniJava.Lower.Program
import MiniJava.Proofs.Lowering.Sources
import MiniJava.Proofs.StackSafety

namespace MiniJava

open Tac Lower

namespace Scope

variable {s : Scope} {P : Expr → Prop} {e : Expr} {hint : Option ValType} {m : Signature}

theorem mem_of_inOrder {hints : List ValType} {es : List Expr} {p : Expr × Option ValType}
    (h : p ∈ inOrder hints es) : p.1 ∈ es := by
  induction es generalizing hints with
  | nil => exact absurd h List.not_mem_nil
  | cons e es ih =>
    rcases List.mem_cons.1 h with rfl | h
    · exact List.mem_cons_self
    · exact List.mem_cons_of_mem e (ih h)

theorem mem_of_argParts {target : Option Signature} {args : List Expr} {p : Expr × Option ValType}
    (h : p ∈ s.argParts target args) : p.1 ∈ args := by
  unfold argParts at h
  split at h
  · exact mem_of_inOrder h
  · rcases List.mem_append.1 h with h | h
    · exact List.mem_of_mem_take (mem_of_inOrder h)
    · obtain ⟨e, he, rfl⟩ := List.mem_map.1 h
      exact List.mem_of_mem_drop he

theorem mem_children_of_parts {p : Expr × Option ValType} (h : p ∈ s.parts e hint) :
    p.1 ∈ e.children := by
  cases e with
  | int | bool | ident | this | newObject => exact absurd h List.not_mem_nil
  | binary op left right pos =>
    have hmem : ∀ t, p ∈ [(left, t), (right, t)] → p.1 ∈ [left, right] := by
      intro t hp
      rcases List.mem_pair.1 hp with rfl | rfl
      · exact List.mem_cons_self
      · exact List.mem_cons_of_mem left (List.mem_singleton_self right)
    cases op <;> exact hmem _ h
  | not e pos | length e pos | paren e pos | newArray e pos =>
    obtain rfl := List.mem_singleton.1 h
    exact List.mem_singleton_self _
  | index base idx pos =>
    rcases List.mem_pair.1 h with rfl | rfl
    · exact List.mem_cons_self
    · exact List.mem_cons_of_mem base (List.mem_singleton_self idx)
  | call recv method args pos =>
    rcases List.mem_append.1 h with h | h
    · split at h
      · exact absurd h List.not_mem_nil
      · obtain rfl := List.mem_singleton.1 h
        exact List.mem_cons_self
    · exact List.mem_cons_of_mem recv (mem_of_argParts h)
  | array elems pos =>
    obtain ⟨e, he, rfl⟩ := List.mem_map.1 h
    exact he

structure Checked (s : Scope) (P : Expr → Prop) (e : Expr) : Prop where
  check : s.check e = []
  everywhere : e.Everywhere P

theorem Checked.child (h : s.Checked P e) {x : Expr} (hx : x ∈ e.children) : s.Checked P x :=
  ⟨check_child h.check hx, h.everywhere.inside x hx⟩

theorem Checked.throughout (h : s.Checked P e) (hint : Option ValType) :
    s.Throughout (fun e _ ↦ s.Checked P e) e hint := by
  induction e using Expr.children_induction generalizing hint with
  | step e ih =>
    refine .intro e hint h fun p hp ↦ ?_
    have hchild := mem_children_of_parts hp
    exact ih p.1 hchild (h.child hchild) p.2

structure CheckedStmt (s : Scope) (P : Expr → Prop) (stmt : Stmt) : Prop where
  check : s.checkStmt stmt = []
  everywhere : ∀ e ∈ stmt.exprs, e.Everywhere P

theorem CheckedStmt.expr {stmt : Stmt} (h : s.CheckedStmt P stmt) (hm : s.method = some m) :
    ∀ e ∈ stmt.exprs, s.Checked P e :=
  fun e he ↦ ⟨check_exprs hm h.check e he, h.everywhere e he⟩

theorem Checked.unparen (h : s.Checked P e) : s.Checked P e.unparen := by
  induction e using Expr.children_induction with
  | step e ih =>
    cases e with
    | paren e pos =>
      have hmem : e ∈ (Expr.paren e pos).children := List.mem_singleton_self e
      exact ih e hmem (h.child hmem)
    | int | bool | ident | this | binary | not | index | length | call | newObject | newArray
    | array => exact h

/-- The checker has nothing to say about the expressions that a statement uses. -/
theorem CheckedStmt.part {stmt : Stmt} (h : s.CheckedStmt P stmt) (hm : s.method = some m)
    {p : Expr × Option ValType} (hp : p ∈ s.stmtParts stmt) : s.Checked P p.1 := by
  have hexpr := h.expr hm
  cases stmt with
  | var | block => exact absurd hp List.not_mem_nil
  | ifThen cond body pos | «while» cond body pos | ifElse cond body other pos =>
    obtain rfl := List.mem_singleton.1 hp
    exact hexpr cond List.mem_cons_self
  | expr e pos =>
    have he := hexpr e (List.mem_singleton_self e)
    simp only [stmtParts] at hp
    split at hp
    · next hcall => exact (hcall ▸ he.unparen).child (mem_children_of_parts hp)
    · exact absurd hp List.not_mem_nil
    · obtain rfl := List.mem_singleton.1 hp
      exact he
  | assign target index value pos =>
    simp only [stmtParts] at hp
    split at hp
    · exact absurd hp List.not_mem_nil
    · obtain rfl := List.mem_singleton.1 hp
      exact hexpr value (List.mem_singleton_self value)
    · rcases List.mem_pair.1 hp with rfl | rfl
      · exact hexpr _ List.mem_cons_self
      · exact hexpr value (List.mem_cons_of_mem _ (List.mem_singleton_self value))
  | «return» value pos =>
    cases value with
    | none => exact absurd hp List.not_mem_nil
    | some e =>
      obtain rfl := List.mem_singleton.1 hp
      exact hexpr e (List.mem_singleton_self e)

theorem CheckedStmt.intro (hm : s.method = some m) {stmt : Stmt} (h : s.CheckedStmt P stmt)
    (hinner : ∀ x ∈ stmt.inner, s.StmtThroughout (fun e _ ↦ s.Checked P e) (s.CheckedStmt P) x) :
    s.StmtThroughout (fun e _ ↦ s.Checked P e) (s.CheckedStmt P) stmt :=
  .intro stmt h (fun p hp ↦ (h.part hm hp).throughout p.2) hinner

mutual

theorem checkedStmt_throughout (hm : s.method = some m) : ∀ stmt, s.CheckedStmt P stmt →
    s.StmtThroughout (fun e _ ↦ s.Checked P e) (s.CheckedStmt P) stmt
  | .var _, h | .expr .., h | .assign .., h | .return .., h => h.intro hm nofun
  | .block body _, h => h.intro hm (checkedStmts_throughout hm body h.check h.everywhere)
  | .ifThen cond body _, h | .while cond body _, h => by
    obtain ⟨-, hbody⟩ := List.append_eq_nil_iff.1 h.check
    obtain ⟨-, hp⟩ := List.forall_mem_cons.1 h.everywhere
    exact h.intro hm (List.forall_mem_singleton.2 (checkedStmt_throughout hm body ⟨hbody, hp⟩))
  | .ifElse cond body other _, h => by
    obtain ⟨hc, hother⟩ := List.append_eq_nil_iff.1 h.check
    obtain ⟨-, hbody⟩ := List.append_eq_nil_iff.1 hc
    obtain ⟨-, hp⟩ := List.forall_mem_cons.1 h.everywhere
    obtain ⟨hpb, hpo⟩ := List.forall_mem_append.1 hp
    exact h.intro hm (forall_mem_two.2 ⟨checkedStmt_throughout hm body ⟨hbody, hpb⟩,
      checkedStmt_throughout hm other ⟨hother, hpo⟩⟩)

theorem checkedStmts_throughout (hm : s.method = some m) : ∀ stmts, s.checkStmts stmts = [] →
    (∀ e ∈ Stmt.exprsAll stmts, e.Everywhere P) →
      ∀ x ∈ stmts, s.StmtThroughout (fun e _ ↦ s.Checked P e) (s.CheckedStmt P) x
  | [], _, _ => nofun
  | stmt :: rest, h, hp => by
    obtain ⟨hfirst, hrest⟩ := List.append_eq_nil_iff.1 h
    obtain ⟨hpf, hpr⟩ := List.forall_mem_append.1 hp
    exact List.forall_mem_cons.2 ⟨checkedStmt_throughout hm stmt ⟨hfirst, hpf⟩,
      checkedStmts_throughout hm rest hrest hpr⟩

end

/-- An expression that a checked method evaluates is checked. -/
theorem Checked.of_evaluates (hm : s.method = some m)
    (h : Evaluates (fun e _ ↦ s.Checked P e) (s.CheckedStmt P) e) : s.Checked P e := by
  rcases h with ⟨-, h⟩ | ⟨e', pos, hs, rfl⟩
  · exact h
  · exact (hs.expr hm e' (List.mem_singleton_self e')).unparen

end Scope

namespace Program

variable {p : Program} {m : MethodDecl}

/-- Methods are checked and lowered in the scope that their name stands for. -/
def bodyScope (p : Program) (m : MethodDecl) : Scope := ⟨p.symbols, p.symbols.method? m.name.name⟩

theorem method_bodyScope (hm : m ∈ p.cls.methods) : ∃ sig, (p.bodyScope m).method = some sig := by
  refine Option.isSome_iff_exists.1 (Option.isSome_iff_ne_none.2 fun hnone ↦ ?_)
  have hfind : p.symbols.methods.reverse.find? (·.name == m.name.name) = none := by
    rw [← hnone]
    simp [bodyScope, Symbols.method?, List.findRev?_eq_findRev?TR, List.findRev?TR]
  have hsig : m.signature ∈ p.symbols.methods.reverse :=
    List.mem_reverse.2 (List.mem_map_of_mem hm)
  exact List.find?_eq_none.1 hfind _ hsig (by simp [MethodDecl.signature])

theorem checkStmts_bodyScope_subset (hm : m ∈ p.cls.methods) :
    (p.bodyScope m).checkStmts m.body ⊆ p.check := by
  obtain ⟨sig, hsig⟩ := method_bodyScope hm
  have hdecl : p.symbols.method? m.name.name = some sig := hsig
  intro f hf
  refine List.mem_flatMap.2 ⟨m, hm, ?_⟩
  rw [bodyScope, hdecl] at hf
  rw [MethodDecl.check, hdecl]
  exact List.mem_append_right _ hf

theorem checkStmts_bodyScope (h : p.check = []) (hm : m ∈ p.cls.methods) :
    (p.bodyScope m).checkStmts m.body = [] :=
  List.eq_nil_of_subset_nil (h ▸ checkStmts_bodyScope_subset hm)

/-- The body of a method of an accepted program is lowered to what its checked parts issue. -/
theorem issued_code {P : Expr → Prop} (h : p.check = []) (hm : m ∈ p.cls.methods)
    (hp : ∀ e ∈ Stmt.exprsAll m.body, e.Everywhere P) (n : Numbering) :
    ∀ i ∈ (m.lower p.symbols n).code, (p.bodyScope m).Issued
      (fun e _ ↦ (p.bodyScope m).Checked P e) ((p.bodyScope m).CheckedStmt P) i := by
  obtain ⟨sig, hsig⟩ := method_bodyScope hm
  exact Scope.issues_lowerStmts
    (Scope.checkedStmts_throughout hsig m.body (checkStmts_bodyScope h hm) hp) n

/-- What holds of all that the parts of an accepted program are lowered to holds of its code. -/
theorem forall_code {A : Instr → Prop} {P : MethodDecl → Expr → Prop} (h : p.check = [])
    (hp : ∀ m ∈ p.cls.methods, ∀ e ∈ Stmt.exprsAll m.body, e.Everywhere (P m))
    (hsuper : A (.call ⟨.special (.this p.cls.name.name), .void⟩))
    (hreturn : A (.return .void none))
    (hissued : ∀ m ∈ p.cls.methods, ∀ i, (p.bodyScope m).Issued
      (fun e _ ↦ (p.bodyScope m).Checked (P m) e) ((p.bodyScope m).CheckedStmt (P m)) i → A i) :
    ∀ tm ∈ p.lower.1.methods, ∀ i ∈ tm.code, A i := by
  intro tm htm
  rcases List.mem_cons.1 htm with rfl | htm
  · exact List.forall_mem_singleton.2 hsuper
  · obtain ⟨m, hm, n, rfl⟩ := mem_lowerMethods htm
    exact forall_closeBody (fun _ ↦ hreturn) fun i hi ↦
      hissued m hm i (issued_code h hm (hp m hm) n i hi)

end Program

end MiniJava

import MiniJava.Proofs.Checking.Names
import MiniJava.Proofs.Lowering.Blocks

namespace MiniJava

open Tac

namespace Lower

variable {α β : Type} {x : Lower α} {f : α → Lower β} {P Q : Prop}

/-- Code generation has nothing to report just if `P`, wherever its numbers start. -/
structure SilentIff (x : Lower α) (P : Prop) : Prop where
  findings (n : Numbering) : (x n).findings = [] ↔ P

namespace SilentIff

theorem pure (a : α) : (pure a : Lower α).SilentIff True := ⟨fun _ ↦ iff_of_true rfl trivial⟩

theorem emit (i : Instr) : (emit i).SilentIff True := ⟨fun _ ↦ iff_of_true rfl trivial⟩

theorem freshName (taken : List String) (stem : String) : (freshName taken stem).SilentIff True :=
  ⟨fun _ ↦ iff_of_true rfl trivial⟩

theorem unsupported (what : String) (pos : Position) : (unsupported what pos).SilentIff False :=
  ⟨fun _ ↦ iff_of_false nofun id⟩

theorem congr (h : x.SilentIff P) (hpq : P ↔ Q) : x.SilentIff Q :=
  ⟨fun n ↦ (h.findings n).trans hpq⟩

theorem bind (hx : x.SilentIff P) (hf : ∀ a, (f a).SilentIff Q) : (x >>= f).SilentIff (P ∧ Q) where
  findings n := by rw [findings_bind, List.append_eq_nil_iff, hx.findings, (hf _).findings]

theorem bind_left (hx : x.SilentIff P) (hf : ∀ a, (f a).SilentIff True) : (x >>= f).SilentIff P :=
  (hx.bind hf).congr (by simp)

theorem bind_right (hx : x.SilentIff True) (hf : ∀ a, (f a).SilentIff Q) : (x >>= f).SilentIff Q :=
  (hx.bind hf).congr (by simp)

end SilentIff

end Lower

def Binding.Assignable (b : Binding) : Prop := b ≠ .undeclared ∧ b ≠ .cls

namespace Scope

open Lower

variable {s : Scope}

theorem silentIff_toTemp (ty : ValType) (rhs : Rhs) : (s.toTemp ty rhs).SilentIff True :=
  .bind_right (.bind_left (.freshName ..) fun _ ↦ .pure _) fun _ ↦
    .bind_left (.emit _) fun _ ↦ .pure _

theorem silentIff_lowerIdent (id : Ident) (hint : Option ValType) :
    (s.lowerIdent id hint).SilentIff (s.binding id.name ≠ .undeclared) := by
  unfold lowerIdent
  cases s.binding id.name with
  | param | «local» | cls => exact (SilentIff.pure _).congr (by simp)
  | field | inherited => exact (silentIff_toTemp ..).congr (by simp)
  | undeclared =>
    exact ((SilentIff.unsupported ..).bind_left fun _ ↦ .pure _).congr (by simp)

theorem silentIff_lowerNewObject (cls : Ident) (pos : Position) :
    (s.lowerNewObject cls pos).SilentIff (s.symbols.isClassName cls.name) := by
  have hcreate : (s.createObject cls.name).SilentIff True :=
    .bind_right (silentIff_toTemp ..) fun _ ↦ .bind_left (.emit _) fun _ ↦ .pure _
  rw [s.lowerNewObject_eq]
  split
  · next h => exact hcreate.congr (by simp [h])
  · next h => exact ((SilentIff.unsupported ..).bind_left fun _ ↦ hcreate).congr (by simp [h])

def Clear (s : Scope) (e : Expr) : Prop :=
  ∀ hint, (s.lower e hint).SilentIff (e.Everywhere s.Declared)

section Lists

variable {es : List Expr} (h : ∀ e ∈ es, s.Clear e)

include h

theorem silentIff_lowerInOrder (hints : List ValType) :
    (lowerInOrder hints (es.map s.lower)).SilentIff (∀ e ∈ es, e.Everywhere s.Declared) := by
  induction es generalizing hints with
  | nil => exact (SilentIff.pure _).congr (by simp)
  | cons e es ih =>
    obtain ⟨he, hes⟩ := List.forall_mem_cons.1 h
    exact ((he hints.head?).bind fun _ ↦ (ih hes hints.tail).bind_left fun _ ↦ .pure _).congr
      List.forall_mem_cons.symm

theorem silentIff_storeFrom (array : Operand) (element : ValType) (i : Nat) :
    (storeFrom array element i (es.map s.lower)).SilentIff
      (∀ e ∈ es, e.Everywhere s.Declared) := by
  induction es generalizing i with
  | nil => exact (SilentIff.pure _).congr (by simp)
  | cons e es ih =>
    obtain ⟨he, hes⟩ := List.forall_mem_cons.1 h
    exact ((he (some element)).bind fun _ ↦ (SilentIff.emit _).bind_right fun _ ↦
      ih hes (i + 1)).congr List.forall_mem_cons.symm

theorem silentIff_pack (ty : ValType) :
    (s.pack ty (es.map s.lower)).SilentIff (∀ e ∈ es, e.Everywhere s.Declared) := by
  have hstores (array : Operand) :=
    (silentIff_storeFrom h array (ty.element?.getD .int) 0).bind_left fun _ ↦ SilentIff.pure array
  exact (silentIff_toTemp ..).bind_right fun _ ↦ (SilentIff.freshName ..).bind_right fun _ ↦
    (SilentIff.emit _).bind_right fun _ ↦ hstores _

/-- Gathered or not, all arguments are lowered. -/
theorem silentIff_lowerArgs (target : Option Signature) (args : List Expr) :
    (s.lowerArgs target args (es.map s.lower)).SilentIff (∀ e ∈ es, e.Everywhere s.Declared) := by
  unfold lowerArgs
  simp only
  split
  · exact silentIff_lowerInOrder h _
  · rw [← List.map_take, ← List.map_drop]
    have hfixed (k : Nat) :=
      silentIff_lowerInOrder fun e he ↦ h e (List.mem_of_mem_take (i := k) he)
    have hpacked (k : Nat) := silentIff_pack fun e he ↦ h e (List.mem_of_mem_drop (i := k) he)
    refine ((hfixed _ _).bind fun _ ↦ (hpacked _ _).bind_left fun _ ↦ .pure _).congr ?_
    rw [← List.forall_mem_append, List.take_append_drop]

end Lists

theorem silentIff_lowerCall {recv : Expr} {args : List Expr} (hrecv : s.Clear recv)
    (hargs : ∀ e ∈ args, s.Clear e) (method : Ident) (hint : Option ValType) :
    (s.lowerCall recv method args hint).SilentIff
      (∀ e ∈ recv :: args, e.Everywhere s.Declared) := by
  have hlowered := silentIff_lowerArgs hargs (s.target? recv method.name) args
  unfold lowerCall lowerCallWith
  rw [s.lowerEach_eq_map]
  cases hnamed : s.className? recv with
  | none =>
    exact ((hrecv none).bind fun _ ↦ hlowered.bind_left fun _ ↦ .pure _).congr
      List.forall_mem_cons.symm
  | some cls =>
    -- The class of a static call is not lowered, but its name is declared.
    have hdeclared : recv.Everywhere s.Declared :=
      nameFree_check_iff.1 (check_of_named hnamed ▸ nameFree_nil)
    refine (hlowered.bind_left fun _ ↦ .pure _).congr ?_
    rw [List.forall_mem_cons, and_iff_right hdeclared]

theorem clear (e : Expr) : s.Clear e := by
  induction e using Expr.children_induction with
  | step e ih =>
    intro hint
    rw [Expr.everywhere_iff]
    cases e with
    | int | bool | this => exact (SilentIff.pure _).congr (by simp [Expr.children])
    | ident id =>
      exact (silentIff_lowerIdent id hint).congr (by simp [Expr.children])
    | newObject cls pos =>
      exact (silentIff_lowerNewObject cls pos).congr (by simp [Expr.children])
    | paren e pos =>
      exact (ih e (List.mem_singleton_self e) hint).congr (by simp [Expr.children])
    | not e pos | length e pos | newArray e pos =>
      have he := ih e (List.mem_singleton_self e)
      exact ((he _).bind_left fun _ ↦ silentIff_toTemp ..).congr (by simp [Expr.children])
    | index base idx pos =>
      obtain ⟨hbase, hidx⟩ := forall_mem_two.1 ih
      exact ((hbase _).bind fun _ ↦ (hidx _).bind_left fun _ ↦ silentIff_toTemp ..).congr
        (by simp [Expr.children])
    | binary op left right pos =>
      obtain ⟨hl, hr⟩ := forall_mem_two.1 ih
      cases op with
      | arith op =>
        exact ((hl _).bind fun _ ↦ (hr _).bind_left fun _ ↦ silentIff_toTemp ..).congr
          (by simp [Expr.children])
      | less =>
        exact ((hl _).bind fun _ ↦ (hr _).bind_left fun _ ↦ silentIff_toTemp ..).congr
          (by simp [Expr.children])
      | and =>
        refine ⟨fun n ↦ ?_⟩
        have hand : s.lower (.binary .and left right pos) hint =
            s.lowerAnd (s.lower left (some .bool)) (s.lower right (some .bool)) := rfl
        rw [hand, s.lowerAnd_apply]
        simp only [List.append_eq_nil_iff, (hl _).findings, (hr _).findings, Declared,
          Expr.children, true_and, forall_mem_two]
    | call recv method args pos =>
      obtain ⟨hrecv, hargs⟩ := List.forall_mem_cons.1 ih
      exact ((silentIff_lowerCall hrecv hargs method hint).bind_left fun _ ↦
        silentIff_toTemp ..).congr (by simp [Expr.children])
    | array elems pos =>
      have hlower : s.lower (.array elems pos) hint = do
          let array ← s.allocate (.array (s.literalElement elems)) elems.length
          storeFrom array (s.literalElement elems) 0 (elems.map s.lower)
          return array := by
        rw [← s.lowerEach_eq_map]
        rfl
      rw [hlower]
      exact ((silentIff_toTemp ..).bind_right fun _ ↦ (silentIff_storeFrom ih ..).bind_left fun _ ↦
        SilentIff.pure _).congr (by simp [Expr.children])

theorem everywhere_declared_unparen {e : Expr} :
    e.unparen.Everywhere s.Declared ↔ e.Everywhere s.Declared := by
  rw [← nameFree_check_iff, check_unparen, nameFree_check_iff]

theorem silentIff_lowerCond (cond : Expr) :
    (s.lowerCond cond).SilentIff (cond.Everywhere s.Declared) := by
  rcases s.lowerCond_eq cond with ⟨left, right, pos, hless, heq⟩ | heq
  · rw [heq, ← everywhere_declared_unparen, hless, Expr.everywhere_iff]
    exact ((clear left _).bind fun _ ↦ (clear right _).bind_left fun _ ↦ .pure _).congr
      (by simp [Expr.children])
  · rw [heq]
    exact (clear cond _).bind_left fun _ ↦ .pure _

theorem silentIff_lowerEffect (e : Expr) :
    (s.lowerEffect e).SilentIff (e.Everywhere s.Declared) := by
  rw [← everywhere_declared_unparen]
  unfold lowerEffect
  split
  · next recv method args pos hcall =>
    rw [hcall, Expr.everywhere_iff]
    exact ((silentIff_lowerCall (clear recv) (fun e _ ↦ clear e) ..).bind_left fun _ ↦
      .emit _).congr (by simp [Expr.children])
  · exact (clear _ _).bind_left fun _ ↦ .pure _

section

variable {index : Option Expr} {value : Expr}

theorem silentIff_storeElement (array : Operand) (i value : Expr) :
    (s.storeElement array i value).SilentIff
      (i.Everywhere s.Declared ∧ value.Everywhere s.Declared) :=
  (clear i _).bind fun _ ↦ (clear value _).bind_left fun _ ↦ .emit _

theorem silentIff_assignVar (dest : Operand) :
    (s.assignVar dest index value).SilentIff
      (∀ e ∈ index.toList ++ [value], e.Everywhere s.Declared) := by
  cases index with
  | none => exact ((clear value _).bind_left fun _ ↦ .emit _).congr (by simp)
  | some i => exact (silentIff_storeElement dest i value).congr (by simp)

theorem silentIff_assignField (name : String) (ty : ValType) :
    (s.assignField name ty index value).SilentIff
      (∀ e ∈ index.toList ++ [value], e.Everywhere s.Declared) := by
  cases index with
  | none => exact ((clear value _).bind_left fun _ ↦ .emit _).congr (by simp)
  | some i =>
    exact ((silentIff_toTemp ..).bind_right fun _ ↦
      silentIff_storeElement _ i value).congr (by simp)

/-- An assignment to a class or to an undeclared name is reported, whatever it assigns. -/
theorem silentIff_lowerAssign (target : Ident) :
    (s.lowerAssign target index value).SilentIff
      ((s.binding target.name).Assignable ∧
        ∀ e ∈ index.toList ++ [value], e.Everywhere s.Declared) := by
  unfold lowerAssign Binding.Assignable
  cases s.binding target.name with
  | param | «local» => exact (silentIff_assignVar _).congr (by simp)
  | field | inherited => exact (silentIff_assignField ..).congr (by simp)
  | cls | undeclared => exact (SilentIff.unsupported ..).congr (by simp)

theorem silentIff_lowerReturn (value : Option Expr) :
    (s.lowerReturn value).SilentIff (∀ e ∈ value, e.Everywhere s.Declared) := by
  cases value with
  | none => exact (SilentIff.emit _).congr (by simp)
  | some e => exact ((clear e _).bind_left fun _ ↦ .emit _).congr (by simp)

theorem silentIff_lowerIf {body other : Lower Unit} {P Q : Prop} (cond : Expr)
    (hb : body.SilentIff P) (ho : other.SilentIff Q) :
    (s.lowerIf cond body other).SilentIff (cond.Everywhere s.Declared ∧ P ∧ Q) := by
  refine ⟨fun n ↦ ?_⟩
  rw [s.lowerIf_apply]
  simp only [List.append_eq_nil_iff, (silentIff_lowerCond cond).findings, hb.findings, ho.findings]

/-- Lowering a condition twice reports nothing new. -/
theorem silentIff_lowerWhile {body : Lower Unit} {P : Prop} (cond : Expr) (hb : body.SilentIff P) :
    (s.lowerWhile cond body).SilentIff (cond.Everywhere s.Declared ∧ P) := by
  refine ⟨fun n ↦ ?_⟩
  rw [s.lowerWhile_apply]
  simp only [List.append_eq_nil_iff, (silentIff_lowerCond cond).findings, hb.findings]
  tauto

theorem silentIff_lowerStmts {P : Stmt → Prop} {stmts : List Stmt}
    (h : ∀ stmt ∈ stmts, (s.lowerStmt stmt).SilentIff (P stmt)) :
    (s.lowerStmts stmts).SilentIff (∀ stmt ∈ stmts, P stmt) := by
  induction stmts with
  | nil => exact (SilentIff.pure _).congr (by simp)
  | cons stmt rest ih =>
    obtain ⟨hfirst, hrest⟩ := List.forall_mem_cons.1 h
    exact (hfirst.bind fun _ ↦ ih hrest).congr List.forall_mem_cons.symm

theorem silentIff_lowerStmt_step {P : Stmt → Prop} (stmt : Stmt)
    (h : ∀ x ∈ stmt.inner, (s.lowerStmt x).SilentIff (P x)) :
    (s.lowerStmt stmt).SilentIff (s.NamesStmt Binding.Assignable stmt ∧ ∀ x ∈ stmt.inner, P x) := by
  rw [namesStmt_iff]
  cases stmt with
  | var decl =>
    rw [lowerStmt]
    exact (SilentIff.pure _).congr (by simp [Stmt.inner])
  | block body pos =>
    rw [lowerStmt]
    exact (silentIff_lowerStmts h).congr (by simp [Stmt.inner])
  | ifThen cond body pos =>
    rw [lowerStmt]
    exact (silentIff_lowerIf cond (h body (List.mem_singleton_self body)) (.pure _)).congr
      (by simp [Stmt.inner])
  | ifElse cond body other pos =>
    obtain ⟨hb, ho⟩ := forall_mem_two.1 h
    rw [lowerStmt]
    exact (silentIff_lowerIf cond hb ho).congr (by simp [Stmt.inner])
  | «while» cond body pos =>
    rw [lowerStmt]
    exact (silentIff_lowerWhile cond (h body (List.mem_singleton_self body))).congr
      (by simp [Stmt.inner])
  | expr e pos =>
    rw [lowerStmt]
    exact (silentIff_lowerEffect e).congr (by simp [Stmt.inner])
  | assign target index value pos =>
    rw [lowerStmt]
    exact (silentIff_lowerAssign target).congr
      (by simp [Stmt.inner])
  | «return» value pos =>
    rw [lowerStmt]
    exact (silentIff_lowerReturn value).congr (by simp [Stmt.inner])

theorem silentIff_lowerStmt (stmt : Stmt) : (s.lowerStmt stmt).SilentIff
    (∀ x, Stmt.Within x stmt → s.NamesStmt Binding.Assignable x) := by
  induction stmt using Stmt.inner_induction_one with
  | step stmt ih => exact (silentIff_lowerStmt_step stmt ih).congr forall_within_iff.symm

end

end Scope

namespace Symbols

variable {t : Symbols}

theorem findings_lowerMethods_iff {P : MethodDecl → Prop} {ms : List MethodDecl}
    (h : ∀ m ∈ ms, (m.lower t).SilentIff (P m)) (n : Numbering) :
    (t.lowerMethods n ms).2 = [] ↔ ∀ m ∈ ms, P m := by
  induction ms generalizing n with
  | nil => exact iff_of_true rfl (List.forall_mem_nil P)
  | cons m ms ih =>
    obtain ⟨hm, hms⟩ := List.forall_mem_cons.1 h
    rw [lowerMethods, List.forall_mem_cons, ← hm.findings n, ← ih hms]
    exact List.append_eq_nil_iff

end Symbols

/-- Lowering a program reports nothing just if all names in its methods are declared and it assigns
to no class. -/
theorem Program.findings_lower_iff {p : Program} : p.lower.2 = [] ↔
    ∀ m ∈ p.cls.methods, ∀ stmt ∈ m.body, ∀ x, Stmt.Within x stmt →
      (p.bodyScope m).NamesStmt Binding.Assignable x :=
  Symbols.findings_lowerMethods_iff
    (fun _ _ ↦ Scope.silentIff_lowerStmts fun stmt _ ↦ Scope.silentIff_lowerStmt stmt) {}

end MiniJava

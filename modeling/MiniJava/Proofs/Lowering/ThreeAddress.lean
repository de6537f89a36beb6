import MiniJava.Proofs.Checking.Names
import MiniJava.Proofs.Checking.Throughout

namespace MiniJava

open Tac Lower

/-- An element of an array is only assigned from a value or read into one, and the array and the
place in it are no elements themselves. All other operands are no elements. -/
inductive Tac.Instr.ThreeAddress : Instr → Prop
  | store {a i v : Operand} (t ty : ValType) : a.IsAtom → i.IsAtom → v.IsAtom →
      ThreeAddress (.assign (.elem a i t) ty (.value v))
  | fetch {dest a i : Operand} (t ty : ValType) : dest.IsAtom → a.IsAtom → i.IsAtom →
      ThreeAddress (.assign dest ty (.value (.elem a i t)))
  | atoms {i : Instr} : (∀ x ∈ i.operands, x.IsAtom) → ThreeAddress i

namespace Scope

variable {s : Scope} {E : Expr → Option ValType → Prop} {S : Stmt → Prop} {i : Instr}

theorem Throughout.of_forall (h : ∀ e hint, E e hint) (e : Expr) (hint : Option ValType) :
    s.Throughout E e hint := by
  induction e using Expr.children_induction generalizing hint with
  | step e ih => exact .intro e hint (h e hint) fun p hp ↦ ih p.1 (mem_children_of_parts hp) p.2

theorem StmtThroughout.of_forall (hE : ∀ e hint, E e hint) (hS : ∀ stmt, S stmt) (stmt : Stmt) :
    s.StmtThroughout E S stmt := by
  induction stmt using Stmt.inner_induction_one with
  | step stmt ih => exact .intro stmt (hS stmt) (fun p _ ↦ .of_forall hE p.1 p.2) ih

theorem StoreArray.isAtom {target : Ident} {value : Expr} {a : Operand}
    (h : s.StoreArray target value a) : a.IsAtom := by
  rcases h with h | ⟨ty, x, -, rfl⟩
  · exact isAtom_of_storage h
  · trivial

/-- Values are put into temporaries, so only places in arrays are left to an instruction. -/
theorem Issued.threeAddress (h : s.Issued E S i) : i.ThreeAddress := by
  cases h with
  | index x _ ha hi _ => exact .fetch _ _ trivial ha.isAtom hi.isAtom
  | element x k _ _ _ hv | argument x k _ _ _ hv => exact .store _ _ trivial trivial hv.isAtom
  | storeAt _ ha _ hi hv => exact .store _ _ ha.isAtom hi.isAtom hv.isAtom
  | read | object | construct => exact .atoms (List.forall_mem_singleton.2 trivial)
  | skip | allocate | packed => exact .atoms (forall_mem_two.2 ⟨trivial, trivial⟩)
  | arith x _ ha hb | less x _ ha hb =>
    exact .atoms (List.forall_mem_cons.2 ⟨trivial, forall_mem_two.2 ⟨ha.isAtom, hb.isAtom⟩⟩)
  | last x _ hv | not x _ hv | length x _ hv | newArray x _ hv =>
    exact .atoms (forall_mem_two.2 ⟨trivial, hv.isAtom⟩)
  | call x _ hk => exact .atoms (List.forall_mem_cons.2 ⟨trivial, hk.isAtom⟩)
  | effect _ _ hk => exact .atoms hk.isAtom
  | and l _ hv | test l _ _ hv => exact .atoms (List.forall_mem_singleton.2 hv.isAtom)
  | put _ _ hv | returnSome _ hv => exact .atoms (List.forall_mem_singleton.2 hv.isAtom)
  | compare l _ ha hb => exact .atoms (forall_mem_two.2 ⟨ha.isAtom, hb.isAtom⟩)
  | store _ hdest hv => exact .atoms (forall_mem_two.2 ⟨isAtom_of_storage hdest, hv.isAtom⟩)
  | undeclared | unknownClass | unassignable | goto | label | returnNone => exact .atoms nofun

/-- The calls of a method that are statements drop the result that they have. -/
theorem Issued.shaped (h : s.Issued E S i) {k : Call} (hk : i = .call k) : k.Shaped := by
  subst hk
  cases h with
  | construct => rfl
  | effect _ _ hgives =>
    obtain ⟨n, rfl⟩ := hgives
    exact shaped_lowerCall _ _ _ _ n

end Scope

/-- Whether a program is accepted or not, its code is three-address code. -/
theorem Program.threeAddress_lower (p : Program) :
    ∀ tm ∈ p.lower.1.methods, ∀ i ∈ tm.code, i.ThreeAddress := by
  intro tm htm
  rcases List.mem_cons.1 htm with rfl | htm
  · exact List.forall_mem_singleton.2 (.atoms (List.forall_mem_singleton.2 trivial))
  · obtain ⟨m, -, n, rfl⟩ := mem_lowerMethods htm
    refine forall_closeBody (fun _ ↦ .atoms nofun) fun i hi ↦ ?_
    have hparts : ∀ stmt ∈ m.body, (p.bodyScope m).StmtThroughout (fun _ _ ↦ True) (fun _ ↦ True)
        stmt := fun stmt _ ↦ .of_forall (fun _ _ ↦ trivial) (fun _ ↦ trivial) stmt
    exact (Scope.issues_lowerStmts hparts n i hi).threeAddress

end MiniJava

import Mathlib.Data.List.Nodup
import MiniJava.Proofs.Lowering.Closure
import MiniJava.Proofs.Semantics.TacRun

namespace MiniJava.Tac

def Instr.reads : Instr → List Operand
  | .assign (.elem array i _) _ rhs =>
    array.parts ++ i.parts ++ rhs.operands.flatMap Operand.parts
  | .assign _ _ rhs => rhs.operands.flatMap Operand.parts
  | i => i.mentions

def Instr.assigned? : Instr → Option String
  | .assign (.var x _) _ _ => some x
  | _ => none

def Instr.Falls : Instr → Prop
  | .goto _ | .return .. => False
  | _ => True

/-- The places that paths from the first instruction come to, with the instructions on the way, the
latest first. A branch goes both ways. -/
inductive Path (code : List Instr) : Nat → List Instr → Prop
  | start : Path code 0 []
  | fall {pc : Nat} {done : List Instr} {i : Instr} :
      Path code pc done → code[pc]? = some i → i.Falls → Path code (pc + 1) (i :: done)
  | jump {pc k : Nat} {done : List Instr} {i : Instr} {l : String} :
      Path code pc done → code[pc]? = some i → i.target? = some l →
      code[k]? = some (.label l) → Path code k (i :: done)

def Operand.Ready (K : List String) (y : Operand) : Prop := ∀ x t, .var x t ∈ y.parts → x ∈ K

/-- Where the variables in `K` have values, some code reads no others, and those in `K'` have values
after it. At each label at least those have values that `entries` has for it. -/
inductive Assigns (entries : List (String × List String)) :
    List String → List Instr → List String → Prop
  | done {K K' : List String} : K' ⊆ K → Assigns entries K [] K'
  | plain {K K₁ K' : List String} {i : Instr} {is : List Instr} :
      i.label? = none → i.target? = none → (∀ y ∈ i.reads, y.Ready K) →
      K₁ ⊆ i.assigned?.toList ++ K → Assigns entries K₁ is K' → Assigns entries K (i :: is) K'
  | branch {K S K' : List String} {c : Cond} {l : String} {is : List Instr} :
      (∀ y ∈ c.operands, y.Ready K) → (l, S) ∈ entries → S ⊆ K → Assigns entries K is K' →
      Assigns entries K (.branch c l :: is) K'
  | goto {K S K₁ K' : List String} {l : String} {is : List Instr} :
      (l, S) ∈ entries → S ⊆ K → Assigns entries K₁ is K' → Assigns entries K (.goto l :: is) K'
  | label {K S K' : List String} {l : String} {is : List Instr} :
      (l, S) ∈ entries → S ⊆ K → Assigns entries S is K' → Assigns entries K (.label l :: is) K'

theorem Operand.Ready.mono {K K' : List String} {y : Operand} (h : y.Ready K) (hK : K ⊆ K') :
    y.Ready K' := fun x t hx ↦ hK (h x t hx)

theorem Operand.Ready.var {K : List String} {x : String} {t : ValType} (hx : x ∈ K) :
    (Operand.var x t).Ready K := by
  intro y u hy
  obtain ⟨rfl, -⟩ := Operand.var.inj (List.mem_singleton.1 hy)
  exact hx

theorem Operand.Ready.lit {K : List String} (v : Int32) (t : ValType) :
    (Operand.lit v t).Ready K := fun _ _ hx ↦ absurd (List.mem_singleton.1 hx) nofun

theorem Operand.Ready.parts {K : List String} {y : Operand} (h : y.Ready K) :
    ∀ z ∈ y.parts, z.Ready K := by
  induction y with
  | elem a i t iha ihi =>
    have ha : a.Ready K := fun x t hx ↦
      h x t (List.mem_cons_of_mem _ (List.mem_append_left _ hx))
    have hi : i.Ready K := fun x t hx ↦
      h x t (List.mem_cons_of_mem _ (List.mem_append_right _ hx))
    exact List.forall_mem_cons.2 ⟨h, List.forall_mem_append.2 ⟨iha ha, ihi hi⟩⟩
  | lit | var | param | this | cls => exact List.forall_mem_singleton.2 h

theorem Operand.mem_parts_self (y : Operand) : y ∈ y.parts := by
  cases y <;> exact List.mem_cons_self

theorem Instr.reads_subset_mentions (i : Instr) : i.reads ⊆ i.mentions := by
  cases i with
  | assign dest ty rhs =>
    have hrhs : rhs.operands.flatMap Operand.parts ⊆ (Instr.assign dest ty rhs).mentions :=
      List.subset_append_right _ _
    cases dest with
    | elem array i t =>
      refine List.append_subset.2 ⟨fun y hy ↦ ?_, hrhs⟩
      exact List.mem_cons_of_mem _ (List.mem_append_left _ hy)
    | lit | var | param | this | cls => exact hrhs
  | putField | call | branch | goto | label | «return» | invalid => exact List.Subset.refl _

/-- Ready operands are all that an instruction reads. -/
theorem Instr.ready_reads {K : List String} {i : Instr} (h : ∀ y ∈ i.operands, y.Ready K) :
    ∀ y ∈ i.reads, y.Ready K := by
  intro y hy
  obtain ⟨z, hz, hpart⟩ := List.mem_flatMap.1 (i.reads_subset_mentions hy)
  exact (h z hz).parts y hpart

theorem drop_eq_cons {code : List Instr} {pc : Nat} {i : Instr} (hi : code[pc]? = some i) :
    code.drop pc = i :: code.drop (pc + 1) := by
  obtain ⟨hlt, rfl⟩ := List.getElem?_eq_some_iff.1 hi
  exact List.drop_eq_getElem_cons hlt

namespace Assigns

variable {entries entries' : List (String × List String)} {K K₁ K₂ K' : List String}
  {code code' is : List Instr} {i : Instr} {l : String} {pc : Nat}

theorem assign {x : String} {t ty : ValType} {rhs : Rhs} (h : ∀ y ∈ rhs.operands, y.Ready K)
    (hK : K₁ ⊆ x :: K) (h' : Assigns entries K₁ is K') :
    Assigns entries K (.assign (.var x t) ty rhs :: is) K' := by
  refine .plain rfl rfl (fun y hy ↦ ?_) hK h'
  obtain ⟨z, hz, hpart⟩ := List.mem_flatMap.1 hy
  exact (h z hz).parts y hpart

theorem mono (h : Assigns entries K code K') (he : entries ⊆ entries') :
    Assigns entries' K code K' := by
  induction h with
  | done hK => exact .done hK
  | plain hl ht hr hK _ ih => exact .plain hl ht hr hK ih
  | branch hc hm hS _ ih => exact .branch hc (he hm) hS ih
  | goto hm hS _ ih => exact .goto (he hm) hS ih
  | label hm hS _ ih => exact .label (he hm) hS ih

theorem weaken (h : Assigns entries K code K') (hK : K ⊆ K₁) : Assigns entries K₁ code K' := by
  induction h generalizing K₁ with
  | done hK' => exact .done (List.Subset.trans hK' hK)
  | plain hl ht hr hsub h _ =>
    refine .plain hl ht (fun y hy ↦ (hr y hy).mono hK) (List.Subset.trans hsub ?_) h
    exact List.append_subset.2
      ⟨List.subset_append_left _ _, List.subset_append_of_subset_right _ hK⟩
  | branch hc hm hS _ ih =>
    exact .branch (fun y hy ↦ (hc y hy).mono hK) hm (List.Subset.trans hS hK) (ih hK)
  | goto hm hS h _ => exact .goto hm (List.Subset.trans hS hK) h
  | label hm hS h _ => exact .label hm (List.Subset.trans hS hK) h

theorem append (h : Assigns entries K code K₁) (h' : Assigns entries K₁ code' K') :
    Assigns entries K (code ++ code') K' := by
  induction h with
  | done hK => exact h'.weaken hK
  | plain hl ht hr hK _ ih => exact .plain hl ht hr hK (ih h')
  | branch hc hm hS _ ih => exact .branch hc hm hS (ih h')
  | goto hm hS _ ih => exact .goto hm hS (ih h')
  | label hm hS _ ih => exact .label hm hS (ih h')

theorem reads (h : Assigns entries K (i :: is) K') : ∀ y ∈ i.reads, y.Ready K := by
  cases h with
  | plain _ _ hr => exact hr
  | branch hc => exact Instr.ready_reads hc
  | goto | label => exact nofun

theorem next (h : Assigns entries K (i :: is) K') (hi : i.Falls) :
    ∃ K₁, Assigns entries K₁ is K' ∧ K₁ ⊆ i.assigned?.toList ++ K := by
  cases h with
  | plain _ _ _ hK h => exact ⟨_, h, hK⟩
  | branch _ _ _ h => exact ⟨K, h, List.Subset.refl K⟩
  | goto => exact hi.elim
  | label _ hS h => exact ⟨_, h, hS⟩

theorem target (h : Assigns entries K (i :: is) K') (hl : i.target? = some l) :
    ∃ S, (l, S) ∈ entries ∧ S ⊆ K := by
  cases h with
  | plain _ ht => exact absurd (ht.symm.trans hl) nofun
  | branch _ hm hS | goto hm hS =>
    obtain rfl := Option.some.inj hl
    exact ⟨_, hm, hS⟩
  | label => exact absurd hl nofun

/-- From a label on, the variables of its entry are enough. -/
theorem drop (h : Assigns entries K code K') (hl : code[pc]? = some (.label l)) :
    ∃ S, (l, S) ∈ entries ∧ Assigns entries S (code.drop pc) K' := by
  induction h generalizing pc with
  | done => exact absurd hl nofun
  | plain hno _ _ _ _ ih =>
    cases pc with
    | zero =>
      obtain rfl := Option.some.inj hl
      exact absurd hno nofun
    | succ pc => exact ih hl
  | branch _ _ _ _ ih | goto _ _ _ ih =>
    cases pc with
    | zero => exact absurd (Option.some.inj hl) nofun
    | succ pc => exact ih hl
  | label hm hS h ih =>
    cases pc with
    | zero =>
      obtain ⟨rfl⟩ := Option.some.inj hl
      exact ⟨_, hm, .label hm (List.Subset.refl _) h⟩
    | succ pc => exact ih hl

/-- The variables that are taken to have values at some place have been assigned on every path that
comes there. -/
theorem at_path {done : List Instr} (h : Assigns entries K code K')
    (hn : (entries.map Prod.fst).Nodup) (hp : Path code pc done) :
    ∃ K₁, Assigns entries K₁ (code.drop pc) K' ∧
      ∀ x ∈ K₁, x ∈ K ∨ ∃ j ∈ done, j.assigned? = some x := by
  induction hp with
  | start => exact ⟨K, h, fun _ ↦ .inl⟩
  | @fall pc done i _ hi hfalls ih =>
    obtain ⟨K₁, h₁, hdone⟩ := ih
    obtain ⟨K₂, h₂, hsub⟩ := (drop_eq_cons hi ▸ h₁).next hfalls
    refine ⟨K₂, h₂, fun x hx ↦ ?_⟩
    rcases List.mem_append.1 (hsub hx) with hx | hx
    · exact .inr ⟨i, List.mem_cons_self, Option.mem_toList.1 hx⟩
    · exact (hdone x hx).imp_right fun ⟨j, hj, he⟩ ↦ ⟨j, List.mem_cons_of_mem i hj, he⟩
  | @jump pc k done i l _ hi hl hk ih =>
    obtain ⟨K₁, h₁, hdone⟩ := ih
    obtain ⟨S, hS, hsub⟩ := (drop_eq_cons hi ▸ h₁).target hl
    -- The label has one entry, so the jump and the code before the label agree on it.
    obtain ⟨S', hS', h'⟩ := h.drop hk
    obtain ⟨-, rfl⟩ := Prod.mk.inj (List.inj_on_of_nodup_map hn hS hS' rfl)
    refine ⟨S, h', fun x hx ↦ ?_⟩
    exact (hdone x (hsub hx)).imp_right fun ⟨j, hj, he⟩ ↦ ⟨j, List.mem_cons_of_mem i hj, he⟩

/-- What is read on a path has been assigned on it. -/
theorem assigned_of_path {done : List Instr} (h : Assigns entries K code K')
    (hn : (entries.map Prod.fst).Nodup) (hp : Path code pc done) (hi : code[pc]? = some i)
    {x : String} {t : ValType} (hx : .var x t ∈ i.reads) :
    x ∈ K ∨ ∃ j ∈ done, j.assigned? = some x := by
  obtain ⟨K₁, h₁, hdone⟩ := h.at_path hn hp
  rw [drop_eq_cons hi] at h₁
  exact hdone x (h₁.reads _ hx x t (Operand.mem_parts_self _))

end Assigns

end MiniJava.Tac

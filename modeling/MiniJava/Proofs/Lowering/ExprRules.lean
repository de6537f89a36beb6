import Mathlib.Algebra.Group.Nat.Defs
import MiniJava.Proofs.Lowering.Closure
import MiniJava.Proofs.Lowering.Findings
import MiniJava.Proofs.Lowering.Labels
import MiniJava.Proofs.Lowering.Realizes

namespace MiniJava

open Tac Lower

variable {V W : Type}

/-- Generated code counts arguments and elements in 32 bits. -/
def Expr.Countable : Expr → Prop
  | .call _ _ args _ | .array args _ => args.length < 2 ^ 31
  | _ => True

def Scope.Own (s : Scope) : Prop := ∀ m, s.method = some m → m ∈ s.symbols.methods

theorem Lower.grows :
    Closed Instr.Plain fun {α} (x : Lower α) ↦ ∀ n, n.temp ≤ (x n).next.temp where
  simple _ := Instr.Simple.plain
  emit _ _ _ := Nat.le_refl _
  pure _ _ := Nat.le_refl _
  bind_value hx hf n := Nat.le_trans (hx n) (hf _ _)
  name taken stem n := Nat.le_succ_of_le (le_freshNumber taken stem n.temp)
  unsupported _ _ _ := Nat.le_refl _
  and s left right hl hr n := by
    rw [s.lowerAnd_apply]
    let k := { (left n).next with label := (left n).next.label + 1 }
    have ht : (left n).next.temp ≤ (s.freshTemp .bool k).next.temp :=
      Nat.le_succ_of_le (le_freshNumber ..)
    exact Nat.le_trans (hl n) (Nat.le_trans ht (hr _))
  ite s cond body other hc hb ho n := by
    rw [s.lowerIf_apply]
    let c := s.lowerCond cond { n with label := n.label + 1 }
    have hcond : n.temp ≤ c.next.temp := hc { n with label := n.label + 1 }
    exact Nat.le_trans hcond (Nat.le_trans (hb c.next) (ho (body c.next).next))
  loop s cond body hc hb n := by
    rw [s.lowerWhile_apply]
    let c := s.lowerCond cond { n with label := n.label + 1 }
    have hcond : n.temp ≤ c.next.temp := hc { n with label := n.label + 1 }
    exact Nat.le_trans hcond (Nat.le_trans (hb c.next) (hc (body c.next).next))

namespace Scope

variable {I : Interp V W} {s : Scope} {σ : Store V} {pre : Nat → Store V → Prop}

def HoldsAll (I : Interp V W) (s : Scope) (as : List Operand) (vs : List V) (n : Nat)
    (ρ : Store V) : Prop := List.Forall₂ (fun a v ↦ Holds I s a v n ρ) as vs

theorem HoldsAll.stable (as : List Operand) (vs : List V) : s.Stable (HoldsAll I s as vs) :=
  fun _ _ _ _ hn hf h ↦ h.imp fun a v ↦ Holds.stable a v hn hf

theorem HoldsAll.evalAll_eq {as : List Operand} {vs : List V} {n : Nat} {ρ : Store V}
    (h : HoldsAll I s as vs n ρ) : Operand.evalAll (.ofSource I) ρ as = pure vs := by
  induction h with
  | nil => rfl
  | cons h _ ih => simp only [Operand.evalAll, h.eval_eq, ih, pure_bind]

def RealizeAll (I : Interp V W) (s : Scope) (σ : Store V)
    (xs : List (Option ValType → Lower Operand)) (acts : List (Effect W V)) : Prop :=
  List.Forall₂ (fun x act ↦ ∀ hint, Realizes I s σ Anywhere (x hint) act (Holds I s)) xs acts

theorem realizes_lowerInOrder {xs : List (Option ValType → Lower Operand)}
    {acts : List (Effect W V)} (h : RealizeAll I s σ xs acts) (hints : List ValType) :
    Realizes I s σ Anywhere (lowerInOrder hints xs) (Effect.inOrder acts) (HoldsAll I s) := by
  induction h generalizing hints with
  | nil => exact .pure fun _ _ _ _ ↦ .nil
  | cons hx _ ih =>
    refine (hx _).bind fun a v ↦ ?_
    refine ((ih _).keep (Holds.stable a v)).bind fun as vs ↦ ?_
    exact .pure fun _ _ _ hp ↦ .cons hp.1 hp.2

theorem lit_index {i : Nat} (h : i < 2 ^ 31) (ρ : Store V) :
    (Operand.int (Int32.ofNat i)).eval (.ofSource I) ρ = pure (I.int i) := by
  simp only [Operand.int, Operand.eval, Tac.Interp.ofSource, reduceCtorEq, if_false,
    Int32.toInt_ofNat_of_lt h]

theorem realizes_storeFrom {xs : List (Option ValType → Lower Operand)}
    {acts : List (Effect W V)} (h : RealizeAll I s σ xs acts) (array : Operand) (v : V)
    (element : ValType) (i : Nat) (hi : i + xs.length ≤ 2 ^ 31) :
    Realizes I s σ (Holds I s array v) (storeFrom array element i xs) (I.storeFrom v i acts)
      fun _ _ ↦ Holds I s array v := by
  induction h generalizing i with
  | nil => exact .pure fun _ _ _ hp ↦ hp
  | @cons x act xs acts hx _ ih =>
    rw [List.length_cons] at hi
    have hidx : i < 2 ^ 31 := by omega
    refine ((hx _).keep (Holds.stable array v)).bind fun a b ↦ ?_
    have hemit : Realizes I s σ (fun n ρ ↦ Holds I s array v n ρ ∧ Holds I s a b n ρ)
        (emit (.assign (.elem array (.int (Int32.ofNat i)) element) element (.value a)))
        (I.store v (I.int i) b) fun _ _ n ρ ↦ Holds I s array v n ρ ∧ Holds I s a b n ρ := by
      refine .emit fun n ρ w _ hp ↦ ?_
      simp only [Instr.exec, Rhs.eval, hp.1.eval_eq, hp.2.eval_eq, lit_index hidx, pure_bind]
      rfl
    exact hemit.bind fun _ _ ↦ (ih (i + 1) (by omega)).mono (fun _ _ hp ↦ hp.1) fun _ _ _ _ hp ↦ hp

theorem realizes_allocate (ty : ValType) {len : Nat} (h : len < 2 ^ 31) :
    Realizes I s σ pre (s.allocate ty len) (I.newArray (ty.element?.getD .int) (I.int len))
      (Holds I s) :=
  realizes_toTemp fun _ ρ _ _ ↦ by
    simp only [Rhs.eval, Call.eval, lit_index h, pure_bind]
    rfl

theorem realizes_pack {xs : List (Option ValType → Lower Operand)} {acts : List (Effect W V)}
    (h : RealizeAll I s σ xs acts) (ty : ValType) (hlen : xs.length < 2 ^ 31) :
    Realizes I s σ Anywhere (s.pack ty xs) (I.arrayOf (ty.element?.getD .int) acts)
      (Holds I s) := by
  have hact : I.arrayOf (ty.element?.getD .int) acts = (do
      let a ← I.newArray (ty.element?.getD .int) (I.int xs.length)
      let v ← pure a
      I.storeFrom v 0 acts
      return v) := by
    rw [List.Forall₂.length_eq h]
    simp [Interp.arrayOf]
  rw [s.pack_eq, hact]
  refine (realizes_allocate ty hlen).bind fun a v ↦ ?_
  have hcopy : Realizes I s σ (Holds I s a v) (s.assignFresh "__varargs_array_" ty (.value a))
      (pure v) (Holds I s) := realizes_assignFresh (by decide) fun _ _ _ hp ↦ hp.eval_eq
  refine hcopy.bind fun p b ↦ ?_
  exact (realizes_storeFrom h p b _ 0 (by omega)).bind fun _ _ ↦ .pure fun _ _ _ hp ↦ hp

theorem fixedCount_of_varargs {m : Signature} {p : Parameter} (h : m.varargs? = some p) :
    m.fixedCount = m.params.length - 1 ∧ 0 < m.params.length := by
  refine ⟨by simp [Signature.fixedCount, Signature.hasVarargs, h], ?_⟩
  rw [List.length_pos_iff]
  intro hnil
  simp [Signature.varargs?, hnil] at h

theorem gathered?_eq_packed? (m : Signature) (args : List Expr) :
    s.gathered? m args = s.packed? m args := by
  unfold gathered? packed?
  cases hv : m.varargs? with
  | none => split <;> rfl
  | some p =>
    obtain ⟨hfixed, hpos⟩ := fixedCount_of_varargs hv
    by_cases hlen : args.length = m.params.length
    · have hne : args ≠ [] := List.ne_nil_of_length_pos (hlen ▸ hpos)
      obtain ⟨init, e, rfl⟩ : ∃ init e, args = init ++ [e] :=
        ⟨_, _, (List.dropLast_append_getLast hne).symm⟩
      have hinit : m.fixedCount = init.length := by
        rw [List.length_append, List.length_singleton] at hlen
        omega
      simp [hinit, hlen]
    · have hdrop : (args.drop m.fixedCount).length ≠ 1 := by
        rw [List.length_drop]
        omega
      split
      · next e he => exact absurd (by rw [he]; rfl) hdrop
      · exact (Option.filter_some_pos (by simp [hlen])).symm

theorem realizes_lowerArgs {xs : List (Option ValType → Lower Operand)}
    {acts : List (Effect W V)} (h : RealizeAll I s σ xs acts) (hlen : xs.length < 2 ^ 31)
    (target : Option Signature) (args : List Expr) :
    Realizes I s σ Anywhere (s.lowerArgs target args xs) (s.evalArgs I target args acts)
      (HoldsAll I s) := by
  cases target with
  | none => exact realizes_lowerInOrder h _
  | some m =>
    simp only [lowerArgs, evalArgs, Option.bind_some, Option.elim_some, gathered?_eq_packed?]
    cases hp : s.packed? m args with
    | none => exact realizes_lowerInOrder h _
    | some p =>
      have hv : m.varargs? = some p := (Option.filter_eq_some_iff.1 hp).1
      rw [(fixedCount_of_varargs hv).1]
      refine (realizes_lowerInOrder (List.forall₂_take _ h) _).bind fun as vs ↦ ?_
      have hpack := realizes_pack (List.forall₂_drop (m.params.length - 1) h)
        (.ofTy p.symbol.ty) (by rw [List.length_drop]; omega)
      refine (hpack.keep (HoldsAll.stable as vs)).bind fun a v ↦ ?_
      exact .pure fun _ _ _ hp ↦ List.rel_append hp.1 (.cons hp.2 .nil)

section

variable {code part : List Instr} {pc n : Nat} {x l l' : String} {i j : Instr} {a : Operand} {v : V}
  {ρ : Store V}

theorem reaches_assign_label
    (hat : At code pc [.assign (.var x .bool) .bool (.value a), .label l])
    (hv : Holds I s a v n ρ) (w : W) :
    Reaches (.ofSource I) code ⟨pc, ρ, w⟩ ⟨pc + 2, ρ.set x v, w⟩ := by
  have hassign : (Instr.assign (.var x .bool) .bool (.value a)).exec (.ofSource I) ρ w =
      .next (ρ.set x v) w := by
    simp only [Instr.exec, Rhs.eval, hv.eval_eq, Flow.after, Effect.pure_apply]
  exact .head (step_eq_run hat.head hassign) (.one (step_eq_run hat.tail.head rfl))

theorem reaches_and_right (hu : (labelNames code).Nodup)
    (hat : At code pc (.branch (.value a) l :: i :: j :: .label l :: part))
    (ha : Holds I s a v n ρ) (hv : I.isTrue v = true) (w : W) :
    Reaches (.ofSource I) code ⟨pc, ρ, w⟩ ⟨pc + 4, ρ, w⟩ := by
  have hcond : Cond.eval (.ofSource I) ρ (.value a) w = .done v w := congrFun ha.eval_eq w
  have hlabel := hat.tail.tail.tail.head
  have hjump := step_eq_jump hu hat.head (exec_branch_true hcond hv) hlabel
  exact .head hjump (.one (step_eq_run hlabel rfl))

theorem reaches_and_skip (hu : (labelNames code).Nodup)
    (hat : At code pc (.branch (.value a) l ::
      .assign (.var x .bool) .bool (.value (.bool false)) :: .goto l' :: .label l ::
        (part ++ [i, .label l'])))
    (ha : Holds I s a v n ρ) (hv : I.isTrue v = false) (w : W) :
    Reaches (.ofSource I) code ⟨pc, ρ, w⟩ ⟨pc + part.length + 6, ρ.set x (I.bool false), w⟩ := by
  have hcond : Cond.eval (.ofSource I) ρ (.value a) w = .done v w := congrFun ha.eval_eq w
  have hlabel := hat.tail.tail.tail.tail.right.tail.head
  have hbranch := step_eq_run hat.head (exec_branch_false hcond hv)
  have hassign : step (.ofSource I) code ⟨pc + 1, ρ, w⟩ =
      .run ⟨pc + 2, ρ.set x (I.bool false), w⟩ := step_eq_run hat.tail.head rfl
  have hgoto := reaches_goto (I := .ofSource I) hu hat.tail.tail.head hlabel
    (ρ.set x (I.bool false)) w
  refine (Reaches.head hbranch (.head hassign hgoto)).to_pc ?_
  omega

end

theorem realizes_lowerAnd {left right : Lower Operand} {actl actr : Effect W V}
    (hl : Realizes I s σ Anywhere left actl (Holds I s))
    (hr : Realizes I s σ Anywhere right actr (Holds I s))
    (hg : ∀ n, n.temp ≤ (right n).next.temp) :
    Realizes I s σ Anywhere (s.lowerAnd left right)
      (do let l ← actl; if I.isTrue l then actr else return I.bool false) (Holds I s) := by
  intro n code pc hu hat hv ρ w ha _
  rw [s.lowerAnd_apply] at hat hv ⊢
  let k := { (left n).next with label := (left n).next.label + 1 }
  let j := freshNumber s.symbols.declaredNames "tmp" k.temp
  let t := s.freshTemp .bool k
  have htmp : "tmp" ∈ tempStems := by decide
  have hj : k.temp ≤ j := le_freshNumber ..
  have hlater : s.LaterTemp k.temp (numbered "tmp" j) := laterTemp_fresh htmp k.temp
  -- The result is a temporary older than those of the right side, which leave it alone.
  have hgrown : j < (right t.next).next.temp := hg t.next
  have hsettled : ¬ s.LaterTemp (right t.next).next.temp (numbered "tmp" j) :=
    not_laterTemp_numbered htmp hgrown
  have hset (b : V) (ρ' : Store V) : Holds I s t.value b (right t.next).next.temp
      (ρ'.set (numbered "tmp" j) b) := ⟨hsettled, congrArg _ (ρ'.set_self _ b)⟩
  simp only [List.mem_append, List.mem_cons, not_or] at hv
  have hleft := hl n code pc hu hat.left (fun what ↦ (hv what).1) ρ w ha trivial
  cases hw : actl w with
  | abort w' =>
    rw [hw] at hleft
    rw [Effect.bind_abort hw]
    exact hleft
  | done lv w₁ =>
    rw [hw] at hleft
    obtain ⟨ρ₁, hr₁, hf₁, hn₁, hl₁⟩ := hleft
    rw [Effect.bind_done hw]
    have hlast : (left n).next.temp ≤ (right t.next).next.temp :=
      Nat.le_of_lt (Nat.lt_of_le_of_lt hj hgrown)
    cases hb : I.isTrue lv with
    | true =>
      have hright := hat.right.tail.tail.tail.tail
      have henter := hr₁.trans (reaches_and_right hu hat.right hl₁ hb w₁)
      have hrun := hr t.next code _ hu hright.left (fun what ↦ (hv what).2.2.2.2.2.1) ρ₁ w₁
        (hf₁.agree ha) trivial
      have hle : n.temp ≤ j + 1 := Nat.le_succ_of_le (Nat.le_trans hn₁ hj)
      simp only [if_true]
      cases hwr : actr w₁ with
      | abort w' =>
        rw [hwr] at hrun
        obtain ⟨ρ₂, ha₂, hf₂⟩ := hrun
        exact ⟨ρ₂, henter.aborts ha₂, hf₁.trans hf₂ hle⟩
      | done rv w₂ =>
        rw [hwr] at hrun
        obtain ⟨ρ₂, hr₂, hf₂, -, hl₂⟩ := hrun
        have hend := reaches_assign_label hright.right hl₂ w₂
        refine ⟨_, ((henter.trans hr₂).trans hend).to_pc ?_,
          (hf₁.trans hf₂ hle).trans (.set hlater _ rv) hn₁, Nat.le_trans hn₁ hlast, hset rv ρ₂⟩
        simp only [List.length_append, List.length_cons, List.length_nil]
        omega
    | false =>
      have hskip := reaches_and_skip hu hat.right hl₁ hb w₁
      refine ⟨_, (hr₁.trans hskip).to_pc ?_, hf₁.trans (.set hlater _ (I.bool false)) hn₁,
        Nat.le_trans hn₁ hlast, hset (I.bool false) ρ₁⟩
      simp only [List.length_append, List.length_cons, List.length_nil]
      omega

end Scope

end MiniJava

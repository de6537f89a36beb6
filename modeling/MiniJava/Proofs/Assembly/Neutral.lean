import MiniJava.Proofs.Assembly.Calls
import MiniJava.Proofs.Assembly.Levels
import MiniJava.Proofs.Assembly.Ops
import MiniJava.Proofs.Lowering.Closure

namespace MiniJava

open Tac

namespace Tac

def Call.Countable (k : Call) : Prop := k.kind.args.length < 2 ^ 31

instance (k : Call) : Decidable k.Countable := Nat.decLt _ _

def Call.results (k : Call) : Nat :=
  match k.kind with
  | .static .. | .virtual .. => if k.ret = .void then 0 else 1
  | .special _ => 0
  | .new _ | .newArray _ | .length _ => 1

theorem Call.results_eq {k : Call} (h : k.Shaped) : k.results = if k.ret = .void then 0 else 1 := by
  obtain ⟨kind, ret⟩ := k
  cases kind with
  | static | virtual => rfl
  | special x => exact (if_pos h).symm
  | new | newArray | length => exact (if_neg h).symm

def Rhs.results : Rhs → Nat
  | .call k => k.results
  | .value _ | .arith .. | .less .. | .not _ | .field .. => 1

theorem Rhs.results_le_one (r : Rhs) : r.results ≤ 1 := by
  cases r with
  | value | arith | less | not | field => exact Nat.le_refl 1
  | call k =>
    obtain ⟨kind, ret⟩ := k
    cases kind with
    | static | virtual =>
      by_cases hret : ret = .void
      · exact Nat.le_trans (Nat.le_of_eq (if_pos hret)) (Nat.zero_le 1)
      · exact Nat.le_of_eq (if_neg hret)
    | special => exact Nat.zero_le 1
    | new | newArray | length => exact Nat.le_refl 1

def Instr.comparisons : Instr → Nat
  | .assign _ _ r => r.comparisons
  | _ => 0

def Instr.base : Instr → Nat
  | .assign (.elem ..) _ _ => 2
  | _ => 0

structure Instr.Sound (c : Class) (i : Instr) : Prop where
  binds : ∀ k, i.call? = some k → k.Binds c
  shaped : ∀ k, i = .call k → k.Shaped
  returns : ∀ x, i ≠ .return .void (some x)

end Tac

namespace Jasmin

variable {Γ : String → Option Nat} {c : Tac.Class} {m : Tac.Method} {n d : Nat}
  {part : List (Line Opcode)}

theorem balanced_loadThis : Balanced Γ d [loadThis] (d + 1) := .op rfl rfl rfl (Nat.zero_le _)

theorem balanced_load {x : Operand} (h : load m x = .ok part) : Balanced Γ d part (d + 1) := by
  induction x generalizing part d with
  | lit v t =>
    obtain rfl := Except.ok.inj h
    unfold Opcode.constant
    split_ifs <;> exact .op rfl rfl rfl (Nat.zero_le _)
  | var x t | param j x t =>
    obtain ⟨⟨k, i⟩, -, h⟩ := bind_eq_ok.1 h
    obtain rfl := Except.ok.inj h
    exact .op rfl rfl rfl (Nat.zero_le _)
  | elem array index t iha ihi =>
    obtain ⟨as, ha, h⟩ := bind_eq_ok.1 h
    obtain ⟨is, hi, h⟩ := bind_eq_ok.1 h
    obtain rfl := Except.ok.inj h
    exact ((iha ha).append (ihi hi)).append (.op rfl rfl rfl (Nat.le_add_left 2 d))
  | this cls =>
    obtain rfl := Except.ok.inj h
    exact balanced_loadThis
  | cls name => exact absurd h nofun

theorem balanced_loadAll {xs : List Operand} (h : loadAll m xs = .ok part) :
    Balanced Γ d part (d + xs.length) := by
  induction xs generalizing part d with
  | nil =>
    obtain rfl := Except.ok.inj h
    exact .nil
  | cons x xs ih =>
    obtain ⟨first, hf, h⟩ := bind_eq_ok.1 h
    obtain ⟨rest, hr, h⟩ := bind_eq_ok.1 h
    obtain rfl := Except.ok.inj h
    have hlen : d + (x :: xs).length = d + 1 + xs.length := by
      rw [List.length_cons]
      omega
    rw [hlen]
    exact (balanced_load hf).append (ih hr)

theorem balanced_jumpLess {left right : Operand} {l : String}
    (h : jumpLess m left right l = .ok part) (hl : Γ l = some d) : Balanced Γ d part d := by
  unfold jumpLess at h
  split_ifs at h
  · obtain ⟨ls, hls, h⟩ := bind_eq_ok.1 h
    obtain rfl := Except.ok.inj h
    exact (balanced_load hls).append (.jump rfl rfl hl)
  · obtain ⟨rs, hrs, h⟩ := bind_eq_ok.1 h
    obtain rfl := Except.ok.inj h
    exact (balanced_load hrs).append (.jump rfl rfl hl)
  · obtain ⟨ls, hls, h⟩ := bind_eq_ok.1 h
    obtain ⟨rs, hrs, h⟩ := bind_eq_ok.1 h
    obtain rfl := Except.ok.inj h
    exact ((balanced_load hls).append (balanced_load hrs)).append (.jump rfl rfl hl)

/-- The second constant is not counted, but neither are both run. -/
theorem balanced_pushBoolean (ht : Γ (trueLabel n) = some d) (he : Γ (endLabel n) = some (d + 1)) :
    Balanced Γ d (pushBoolean n) (d + 1) := by
  -- The line after the jump is only reached by its label, from before the first constant.
  have hzero : (Line.op (.iconst 0) 1).Takes Γ d (d + 1) := ⟨Nat.zero_le _, fun _ ↦ rfl, nofun⟩
  have hgoto : (Line.op (.jump .goto (endLabel n)) 0).Takes Γ (d + 1) d := by
    refine ⟨Nat.zero_le _, False.elim, ?_⟩
    rintro _ ⟨⟩
    exact ⟨d + 1, he, rfl⟩
  have hone : (Line.op (.iconst 1) 0).Takes Γ d (d + 1) := ⟨Nat.zero_le _, fun _ ↦ rfl, nofun⟩
  have hlt : (d : Int) ≤ d + 1 := by omega
  refine Levels.cons (Int.le_refl _) hzero (.cons (Int.le_refl _) hgoto ?_)
  refine .cons hlt ⟨ht, rfl⟩ (.cons hlt hone ?_)
  exact .cons (Int.le_refl _) ⟨he, rfl⟩ (.nil (Int.le_refl _))

theorem balanced_invoke {mode : Invocation} {owner method : String} {desc : Descriptor}
    {ret : ValType} {p : Nat} {δ : Int} (hlen : desc.arity mode = p)
    (hret : desc.ret = .void ↔ ret = .void) (hδ : δ = (if ret = .void then 0 else 1) - p) :
    Balanced Γ (d + p) [.op (.invoke mode owner method desc) δ]
      (d + if ret = .void then 0 else 1) := by
  have hpushes : (Opcode.invoke mode owner method desc).pushes = if ret = .void then 0 else 1 := by
    simp only [Opcode.pushes, hret]
  have hpops : (Opcode.invoke mode owner method desc).pops = p := hlen
  refine .op ?_ ?_ rfl ?_
  · rw [hpops, hpushes]
    omega
  · rw [Opcode.effect, hpops, hpushes, hδ]
    split_ifs <;> rfl
  · rw [hpops]
    omega

theorem callDelta_eq {args : List Operand} {ret : ValType} (h : args.length < 2 ^ 31) :
    callDelta args ret = (if ret = .void then 0 else 1) - args.length := by
  rw [callDelta, Int32.toInt_ofNat_of_lt h]

theorem balanced_call {k : Call} (h : call c m k = .ok part) (hb : k.Binds c) (hn : k.Countable) :
    Balanced Γ d part (d + k.results) := by
  obtain ⟨kind, ret⟩ := k
  cases kind with
  | static cls method args =>
    obtain ⟨values, hv, h⟩ := bind_eq_ok.1 h
    obtain rfl := Except.ok.inj h
    obtain ⟨hlen, hret⟩ := callDescriptor_of_suits hb
    exact (balanced_loadAll hv).append (balanced_invoke hlen hret (callDelta_eq hn))
  | virtual recv method args =>
    obtain ⟨cls, hcls, h⟩ := bind_eq_ok.1 h
    obtain ⟨receiver, hr, h⟩ := bind_eq_ok.1 h
    obtain ⟨values, hv, h⟩ := bind_eq_ok.1 h
    obtain rfl := Except.ok.inj h
    obtain ⟨hlen, hret⟩ := callDescriptor_of_suits (hb cls (owner?_of_owner hcls))
    refine ((balanced_load hr).append (balanced_loadAll hv)).append ?_
    rw [Nat.add_assoc, Nat.add_comm 1]
    refine balanced_invoke (congrArg (· + 1) hlen) hret ?_
    have hdelta : callDelta args ret = (if ret = .void then 0 else 1) - args.length :=
      callDelta_eq hn
    dsimp only
    omega
  | special recv =>
    obtain ⟨path, -, h⟩ := bind_eq_ok.1 h
    obtain ⟨receiver, hr, h⟩ := bind_eq_ok.1 h
    obtain rfl := Except.ok.inj h
    exact (balanced_load hr).append (.op rfl rfl rfl (Nat.le_add_left 1 d))
  | new cls =>
    obtain rfl := Except.ok.inj h
    exact .op rfl rfl rfl (Nat.zero_le _)
  | newArray x | length x =>
    obtain ⟨values, hv, h⟩ := bind_eq_ok.1 h
    obtain rfl := Except.ok.inj h
    exact (balanced_load hv).append (.op rfl rfl rfl (Nat.le_add_left 1 d))

theorem balanced_rhs {r : Rhs} (h : rhs c m n r = .ok part)
    (hcall : ∀ k, r = .call k → k.Binds c ∧ k.Countable)
    (hΓ : r.comparisons ≠ 0 → Γ (trueLabel n) = some d ∧ Γ (endLabel n) = some (d + 1)) :
    Balanced Γ d part (d + r.results) := by
  cases r with
  | value x => exact balanced_load h
  | arith op left right =>
    obtain ⟨ls, hl, h⟩ := bind_eq_ok.1 h
    obtain ⟨rs, hr, h⟩ := bind_eq_ok.1 h
    obtain rfl := Except.ok.inj h
    exact ((balanced_load hl).append (balanced_load hr)).append
      (.op rfl rfl rfl (Nat.le_add_left 2 d))
  | less left right =>
    obtain ⟨test, ht, h⟩ := bind_eq_ok.1 h
    obtain rfl := Except.ok.inj h
    obtain ⟨htrue, hend⟩ := hΓ Nat.one_ne_zero
    exact (balanced_jumpLess ht htrue).append (balanced_pushBoolean htrue hend)
  | not x =>
    obtain ⟨v, hv, h⟩ := bind_eq_ok.1 h
    obtain rfl := Except.ok.inj h
    obtain ⟨htrue, hend⟩ := hΓ Nat.one_ne_zero
    exact ((balanced_load hv).append (.jump rfl rfl htrue)).append (balanced_pushBoolean htrue hend)
  | field name t =>
    obtain rfl := Except.ok.inj h
    exact balanced_loadThis.append (.op rfl rfl rfl (Nat.le_add_left 1 d))
  | call k =>
    obtain ⟨hb, hn⟩ := hcall k rfl
    exact balanced_call h hb hn

def Compares (Γ : String → Option Nat) (n : Nat) (i : Instr) : Prop :=
  i.comparisons ≠ 0 → Γ (trueLabel n) = some i.base ∧ Γ (endLabel n) = some (i.base + 1)

def Joins (Γ : String → Option Nat) (i : Instr) : Prop :=
  ∀ l, i.label? = some l ∨ i.target? = some l → Γ l = some 0

/-- Lines that leave the depth as it was, unless by their own account they take too much. -/
def Neutral (Γ : String → Option Nat) (part : List (Line Opcode)) : Prop :=
  recorded part ≤ 0 ∧ (0 ≤ recorded part → Balanced Γ 0 part 0)

theorem Balanced.neutral (h : Balanced Γ 0 part 0) : Neutral Γ part :=
  ⟨Int.le_of_eq h.recorded_eq, fun _ ↦ h⟩

/-- A result that is stored has to be there. -/
theorem neutral_store {pre v : List (Line Opcode)} {r : Rhs} {b : Nat} {o : Opcode}
    (hpre : Balanced Γ 0 pre b) (hv : Balanced Γ b v (b + r.results)) (hpops : o.pops = b + 1)
    (hpushes : o.pushes = 0) (ht : o.target? = none) :
    Neutral Γ (pre ++ v ++ [.op o o.effect]) := by
  have heffect : o.effect = -(b + 1) := by
    rw [Opcode.effect, hpops, hpushes]
    omega
  have hrecorded : recorded (pre ++ v ++ [.op o o.effect]) = r.results - 1 := by
    rw [recorded_append, (hpre.append hv).recorded_eq, recorded_cons, recorded_nil, Line.delta,
      heffect]
    omega
  have hle := r.results_le_one
  refine ⟨by omega, fun hpos ↦ ?_⟩
  have hone : r.results = 1 := by omega
  rw [hone] at hv
  refine (hpre.append hv).append (.op ?_ rfl ht ?_)
  · rw [hpops, hpushes]
    omega
  · exact Nat.le_of_eq hpops

theorem neutral_instr {i : Instr} (h : (instr c m n i).1 = .ok part) (hi : i.Sound c)
    (hn : ∀ k, i.call? = some k → k.Countable) (hc : Compares Γ n i) (hj : Joins Γ i) :
    Neutral Γ part := by
  cases i with
  | assign dest t r =>
    have hcall (k : Call) (hk : r = .call k) : k.Binds c ∧ k.Countable := by
      subst hk
      exact ⟨hi.binds k rfl, hn k rfl⟩
    cases dest with
    | elem array index ty =>
      obtain ⟨place, hp, heq⟩ := instr_elem h
      rw [heq] at h
      obtain ⟨v, hv, h⟩ := bind_eq_ok.1 h
      obtain rfl := Except.ok.inj h
      obtain ⟨as, ha, hp⟩ := bind_eq_ok.1 hp
      obtain ⟨is, hi, hp⟩ := bind_eq_ok.1 hp
      obtain rfl := Except.ok.inj hp
      exact neutral_store ((balanced_load ha).append (balanced_load hi))
        (balanced_rhs hv hcall hc) rfl rfl rfl
    | lit | var | param | this | cls =>
      obtain ⟨v, hv, h⟩ := bind_eq_ok.1 h
      obtain ⟨line, hl, h⟩ := bind_eq_ok.1 h
      obtain rfl := Except.ok.inj h
      obtain ⟨k, j, rfl⟩ := store_eq_ok hl
      exact neutral_store .nil (balanced_rhs hv hcall hc) rfl rfl rfl
  | putField name t x =>
    obtain ⟨v, hv, h⟩ := bind_eq_ok.1 h
    obtain rfl := Except.ok.inj h
    exact ((balanced_loadThis.append (balanced_load hv)).append
      (.op rfl rfl rfl (Nat.le_refl 2))).neutral
  | call k =>
    obtain ⟨v, hv, h⟩ := bind_eq_ok.1 h
    obtain rfl := Except.ok.inj h
    have hcall : Balanced Γ 0 v (0 + k.results) := balanced_call hv (hi.binds k rfl) (hn k rfl)
    refine Balanced.neutral (hcall.append ?_)
    rw [Call.results_eq (hi.shaped k rfl)]
    split_ifs
    · exact .nil
    · exact .op rfl rfl rfl (Nat.le_refl 1)
  | branch cond l =>
    have hl : Γ l = some 0 := hj l (.inr rfl)
    cases cond with
    | value x =>
      obtain ⟨v, hv, h⟩ := bind_eq_ok.1 h
      obtain rfl := Except.ok.inj h
      exact ((balanced_load hv).append (.jump rfl rfl hl)).neutral
    | less left right => exact (balanced_jumpLess h hl).neutral
  | goto l =>
    obtain rfl := Except.ok.inj h
    exact (Balanced.jump (d := 0) (e := 0) rfl rfl (hj l (.inr rfl))).neutral
  | label l =>
    obtain rfl := Except.ok.inj h
    exact (Balanced.label (hj l (.inl rfl))).neutral
  | «return» t x =>
    cases x with
    | none =>
      obtain rfl := Except.ok.inj h
      by_cases ht : t = .void
      · rw [returnLine, if_pos ht]
        exact Balanced.neutral (.op rfl rfl rfl (Nat.zero_le _))
      · rw [returnLine, if_neg ht]
        -- A value is returned that was never pushed, which the line's own account shows.
        have hrecorded : recorded [Line.op (.return (some (kindOf t))) (-1)] = -1 := rfl
        exact ⟨by omega, fun hpos ↦ by omega⟩
    | some x =>
      have ht : t ≠ .void := by
        rintro rfl
        exact hi.returns x rfl
      obtain ⟨v, hv, h⟩ := bind_eq_ok.1 h
      obtain rfl := Except.ok.inj h
      rw [returnLine, if_neg ht]
      exact ((balanced_load hv).append (.op rfl rfl rfl (Nat.le_refl 1))).neutral
  | invalid what =>
    obtain rfl := Except.ok.inj h
    exact Balanced.neutral (.cons (Int.le_refl _) rfl (.nil (Int.le_refl _)))

end Jasmin

end MiniJava

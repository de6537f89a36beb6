import MiniJava.Proofs.Assembly.BodySafe

namespace MiniJava

open Tac

/-- What an instruction takes off the stack is put there: a call has the result that is stored or
dropped, and no value is returned that is not given. -/
def Tac.Instr.Fed : Instr → Prop
  | .assign _ _ r => r.results = 1
  | .call k => k.Shaped
  | .return t none => t = .void
  | _ => True

namespace Jasmin

variable {c : Tac.Class} {m : Tac.Method} {n d e f : Nat} {part part' : List (Line Opcode)}

/-- A stack of depth `d` has all that the lines take by their own account, and at least `e` values
are left after them. -/
structure Covers (d : Nat) (part : List (Line Opcode)) (e : Nat) : Prop where
  left : (e : Int) ≤ d + recorded part
  enough (k : Nat) : 0 ≤ (d : Int) + recorded (part.take k)

namespace Covers

theorem nil : Covers d [] d := ⟨by simp, fun k ↦ by simp⟩

theorem cons {x : Line Opcode} (hx : (e : Int) ≤ d + x.delta) (h : Covers e part f) :
    Covers d (x :: part) f := by
  have hleft := h.left
  refine ⟨by rw [recorded_cons]; omega, fun k ↦ ?_⟩
  cases k with
  | zero => simp
  | succ k =>
    have henough := h.enough k
    rw [List.take_succ_cons, recorded_cons]
    omega

theorem append (h : Covers d part e) (h' : Covers e part' f) : Covers d (part ++ part') f := by
  have hleft := h.left
  have hleft' := h'.left
  refine ⟨by rw [recorded_append]; omega, fun k ↦ ?_⟩
  rw [List.take_append, recorded_append]
  rcases Nat.le_total k part.length with hk | hk
  · have henough := h.enough k
    rw [Nat.sub_eq_zero_of_le hk, List.take_zero, recorded_nil]
    omega
  · have henough := h'.enough (k - part.length)
    rw [List.take_of_length_le hk]
    omega

theorem op {o : Opcode} {δ : Int} (h : (e : Int) ≤ d + δ) : Covers d [.op o δ] e :=
  .cons h .nil

end Covers

/-- Lines that are recorded in full never take more than there is. -/
theorem Levels.nonneg {Γ : String → Option Nat} {t u : Int} (h : Levels Γ d t part e u) (k : Nat) :
    0 ≤ t + recorded (part.take k) := by
  induction h generalizing k with
  | nil hd =>
    rw [List.take_nil, recorded_nil]
    omega
  | cons hd _ _ ih =>
    cases k with
    | zero =>
      rw [List.take_zero, recorded_nil]
      omega
    | succ k =>
      rw [List.take_succ_cons, recorded_cons, ← Int.add_assoc]
      exact ih k

theorem Balanced.covers {Γ : String → Option Nat} (h : Balanced Γ d part e) : Covers d part e where
  left := by
    rw [h.recorded_eq]
    omega
  enough := Levels.nonneg h

theorem covers_load {x : Operand} (h : load m x = .ok part) : Covers d part (d + 1) :=
  (balanced_load (Γ := fun _ ↦ none) h).covers

theorem covers_loadAll {xs : List Operand} (h : loadAll m xs = .ok part) :
    Covers d part (d + xs.length) := (balanced_loadAll (Γ := fun _ ↦ none) h).covers

theorem covers_jumpLess {left right : Operand} {l : String}
    (h : jumpLess m left right l = .ok part) : Covers d part d :=
  (balanced_jumpLess (Γ := fun _ ↦ some d) h rfl).covers

theorem covers_pushBoolean : Covers d (pushBoolean n) (d + 1) :=
  .cons (e := d + 1) (Int.le_refl _) (.cons (Int.le_of_eq (Int.add_zero _).symm)
    (.cons (Int.le_of_eq (Int.add_zero _).symm) (.cons (Int.le_of_eq (Int.add_zero _).symm)
      (.cons (Int.le_of_eq (Int.add_zero _).symm) .nil))))

/-- A count of arguments that does not fit takes less than there is. -/
theorem le_callDelta (args : List Operand) (ret : ValType) :
    (if ret = .void then 0 else 1) - (args.length : Int) ≤ callDelta args ret := by
  by_cases hsmall : args.length < 2 ^ 31
  · exact Int.le_of_eq (callDelta_eq hsmall).symm
  · have hmax := (Int32.ofNat args.length).toInt_le
    rw [Int32.toInt_maxValue] at hmax
    unfold callDelta
    omega

theorem covers_call {k : Call} (h : call c m k = .ok part) : Covers d part (d + k.results) := by
  obtain ⟨kind, ret⟩ := k
  cases kind with
  | static cls method args =>
    obtain ⟨values, hv, h⟩ := bind_eq_ok.1 h
    obtain rfl := Except.ok.inj h
    have hdelta := le_callDelta args ret
    refine (covers_loadAll hv).append (.op ?_)
    simp only [Call.results]
    split_ifs at hdelta ⊢ <;> omega
  | virtual recv method args =>
    obtain ⟨cls, -, h⟩ := bind_eq_ok.1 h
    obtain ⟨receiver, hr, h⟩ := bind_eq_ok.1 h
    obtain ⟨values, hv, h⟩ := bind_eq_ok.1 h
    obtain rfl := Except.ok.inj h
    have hdelta := le_callDelta args ret
    refine ((covers_load hr).append (covers_loadAll hv)).append (.op ?_)
    simp only [Call.results]
    split_ifs at hdelta ⊢ <;> omega
  | special recv =>
    obtain ⟨path, -, h⟩ := bind_eq_ok.1 h
    obtain ⟨receiver, hr, h⟩ := bind_eq_ok.1 h
    obtain rfl := Except.ok.inj h
    exact (covers_load hr).append (.op (by simp [Call.results]))
  | new cls =>
    obtain rfl := Except.ok.inj h
    exact .op (by simp [Call.results])
  | newArray x | length x =>
    obtain ⟨values, hv, h⟩ := bind_eq_ok.1 h
    obtain rfl := Except.ok.inj h
    exact (covers_load hv).append (.op (by simp [Call.results]))

theorem covers_rhs {r : Rhs} (h : rhs c m n r = .ok part) : Covers d part (d + r.results) := by
  cases r with
  | value x => exact covers_load h
  | arith op left right =>
    obtain ⟨ls, hl, h⟩ := bind_eq_ok.1 h
    obtain ⟨rs, hr, h⟩ := bind_eq_ok.1 h
    obtain rfl := Except.ok.inj h
    exact ((covers_load hl).append (covers_load hr)).append (.op (by simp [Rhs.results]))
  | less left right =>
    obtain ⟨test, ht, h⟩ := bind_eq_ok.1 h
    obtain rfl := Except.ok.inj h
    exact (covers_jumpLess ht).append covers_pushBoolean
  | not x =>
    obtain ⟨v, hv, h⟩ := bind_eq_ok.1 h
    obtain rfl := Except.ok.inj h
    exact ((covers_load hv).append (.op (e := d) (by omega))).append covers_pushBoolean
  | field name t =>
    obtain rfl := Except.ok.inj h
    exact .cons (e := d + 1) (Int.le_refl _) (.op (by simp [Rhs.results]))
  | call k => exact covers_call h

/-- An instruction puts all that it takes. -/
theorem covers_instr {i : Instr} (h : (instr c m n i).1 = .ok part) (hi : i.Fed) :
    Covers 0 part 0 := by
  cases i with
  | assign dest t r =>
    have hone : r.results = 1 := hi
    cases dest with
    | elem array index ty =>
      obtain ⟨place, hp, heq⟩ := instr_elem h
      rw [heq] at h
      obtain ⟨v, hv, h⟩ := bind_eq_ok.1 h
      obtain rfl := Except.ok.inj h
      obtain ⟨as, ha, hp⟩ := bind_eq_ok.1 hp
      obtain ⟨is, hi, hp⟩ := bind_eq_ok.1 hp
      obtain rfl := Except.ok.inj hp
      have hvalue := covers_rhs (d := 2) hv
      rw [hone] at hvalue
      exact (((covers_load ha).append (covers_load hi)).append hvalue).append (.op (by decide))
    | lit | var | param | this | cls =>
      obtain ⟨v, hv, h⟩ := bind_eq_ok.1 h
      obtain ⟨line, hl, h⟩ := bind_eq_ok.1 h
      obtain rfl := Except.ok.inj h
      obtain ⟨k, j, rfl⟩ := store_eq_ok hl
      have hvalue := covers_rhs (d := 0) hv
      rw [hone] at hvalue
      exact hvalue.append (.op (by decide))
  | putField name t x =>
    obtain ⟨v, hv, h⟩ := bind_eq_ok.1 h
    obtain rfl := Except.ok.inj h
    exact .cons (e := 1) (by decide) ((covers_load hv).append (.op (by decide)))
  | call k =>
    obtain ⟨v, hv, h⟩ := bind_eq_ok.1 h
    obtain rfl := Except.ok.inj h
    have hcall := covers_call (d := 0) hv
    rw [Call.results_eq hi] at hcall
    refine hcall.append ?_
    split_ifs
    · exact .nil
    · exact .op (by decide)
  | branch cond l =>
    cases cond with
    | value x =>
      obtain ⟨v, hv, h⟩ := bind_eq_ok.1 h
      obtain rfl := Except.ok.inj h
      exact (covers_load hv).append (.op (by decide))
    | less left right => exact covers_jumpLess h
  | goto l | label l | invalid l =>
    obtain rfl := Except.ok.inj h
    exact .cons (Int.le_refl _) .nil
  | «return» t x =>
    cases x with
    | none =>
      obtain rfl := Except.ok.inj h
      obtain rfl : t = .void := hi
      exact .cons (Int.le_refl _) .nil
    | some x =>
      obtain ⟨v, hv, h⟩ := bind_eq_ok.1 h
      obtain rfl := Except.ok.inj h
      refine (covers_load hv).append ?_
      unfold returnLine
      split_ifs
      · exact .op (by decide)
      · exact .op (by decide)

theorem covers_outcomes {code : List Instr}
    (hok : ∀ o ∈ (outcomes c m n code).1, ∃ part, o = .ok part) (hf : ∀ i ∈ code, i.Fed) :
    Covers 0 ((outcomes c m n code).1.flatMap linesOf) 0 := by
  induction code generalizing n with
  | nil => exact .nil
  | cons i is ih =>
    rw [outcomes_cons] at hok ⊢
    obtain ⟨⟨part, hpart⟩, hok⟩ := List.forall_mem_cons.1 hok
    obtain ⟨hi, hf⟩ := List.forall_mem_cons.1 hf
    rw [List.flatMap_cons, hpart, linesOf]
    exact (covers_instr hpart hi).append (ih hok hf)

/-- Lines that never take more than there is are followed to their end. -/
theorem Depth.applyAll_of_nonneg {dp : Depth} {lines : List (Line Opcode)}
    (hpos : ∀ k, 0 ≤ dp.depth + recorded (lines.take k)) : (dp.applyAll lines).2 = true := by
  induction lines generalizing dp with
  | nil => rfl
  | cons x lines ih =>
    have hx : 0 ≤ dp.depth + x.delta := by simpa using hpos 1
    have hstep : dp.step? x = some ⟨dp.depth + x.delta, Max.max dp.max (dp.depth + x.delta)⟩ :=
      step?_eq_some.2 ⟨hx, rfl⟩
    simp only [applyAll, hstep]
    refine ih fun k ↦ ?_
    have hk := hpos (k + 1)
    rwa [List.take_succ_cons, recorded_cons, ← Int.add_assoc] at hk

theorem Depth.applyAll_left {dp : Depth} (happly : (dp.applyAll (part ++ part')).2 = true) :
    (dp.applyAll part).2 = true := by
  induction part generalizing dp with
  | nil => rfl
  | cons x part ih =>
    simp only [List.cons_append, applyAll] at happly ⊢
    cases hx : dp.step? x with
    | none => simp [hx] at happly
    | some dp' =>
      rw [hx] at happly
      exact ih happly

theorem findings_track {dp : Depth} {method : String} {os : List Outcome}
    (hok : ∀ o ∈ os, ∃ part, o = .ok part) (happly : (dp.applyAll (os.flatMap linesOf)).2 = true) :
    (track method dp false os).2 = [] := by
  induction os generalizing dp with
  | nil => rfl
  | cons o os ih =>
    obtain ⟨⟨part, rfl⟩, hrest⟩ := List.forall_mem_cons.1 hok
    rw [List.flatMap_cons, linesOf] at happly
    have hfits := Depth.applyAll_left happly
    have hpart : dp.applyAll part = ((dp.applyAll part).1, true) := Prod.ext rfl hfits
    rw [Depth.applyAll_append hpart] at happly
    simp only [track, linesOf, hfits, Bool.not_true, Bool.or_false, if_true, List.nil_append]
    exact ih hrest happly

/-- A method has no findings if all its instructions have lines and use only what is there. -/
theorem findings_body (hok : ∀ i ∈ m.code, ∀ k, ∃ part, (instr c m k i).1 = .ok part)
    (hf : ∀ i ∈ m.code, i.Fed) : (body c n m).findings = [] := by
  have houtcomes : ∀ o ∈ (outcomes c m n m.code).1, ∃ part, o = .ok part :=
    forall_outcomes hok
  refine findings_track houtcomes (Depth.applyAll_of_nonneg fun k ↦ ?_)
  exact (covers_outcomes houtcomes hf).enough k

end Jasmin

end MiniJava

import MiniJava.Proofs.Assembly.BodyLabels
import MiniJava.Proofs.Assembly.Covers
import MiniJava.Proofs.Lowering.Findings

namespace MiniJava

open Tac Lower

namespace Jasmin

def failure? : Outcome → Option Finding
  | .ok _ => none
  | .error f => some f

def failures (os : List Outcome) : List Finding := os.filterMap failure?

namespace Depth

def follow (d : Depth) : Outcome → Depth
  | .ok part => (d.applyAll part).1
  | .error _ => d

/-- The lines of an instruction take more from the stack than there is. -/
def Overdraws (d : Depth) : Outcome → Prop
  | .ok part => ∃ k, d.depth + recorded (part.take k) < 0
  | .error _ => False

structure Sound (d : Depth) : Prop where
  nonneg : 0 ≤ d.depth
  le_max : d.depth ≤ d.max

end Depth

def numberAt (c : Tac.Class) (m : Tac.Method) (n : Nat) (code : List Instr) (k : Nat) : Nat :=
  (code.take k).foldl (fun n i ↦ (instr c m n i).2) n

def depthAt (d : Depth) (os : List Outcome) (k : Nat) : Depth := (os.take k).foldl Depth.follow d

def OverdrawsAt (d : Depth) (os : List Outcome) (k : Nat) : Prop :=
  ∃ o, os[k]? = some o ∧ (depthAt d os k).Overdraws o

/-- The findings of outcomes in order, with one more where an instruction overdraws the stack for
the first time. -/
inductive Logged (method : String) (d : Depth) (os : List Outcome) : List Finding → Prop
  | never : (∀ k, ¬ OverdrawsAt d os k) → Logged method d os (failures os)
  | first (k : Nat) : OverdrawsAt d os k → (∀ j < k, ¬ OverdrawsAt d os j) →
      Logged method d os (failures (os.take k) ++ .underflow method :: failures (os.drop k))

/-- A body holds the lines of a method's instructions one after another, numbered on from `n`, with
the findings of those that have none. -/
structure Assembled (c : Tac.Class) (m : Tac.Method) (n : Nat) (os : List Outcome) (b : Body) :
    Prop where
  outcome (k : Nat) : os[k]? = m.code[k]?.map fun i ↦ (instr c m (numberAt c m n m.code k) i).1
  lines : b.lines = os.flatMap linesOf ++
    if m.isConstructor && !m.endsWithReturn then [returnLine .void] else []
  maxDepth : b.maxDepth = (depthAt {} os os.length).max
  findings : Logged m.name {} os b.findings
  next : b.next = numberAt c m n m.code m.code.length

inductive AssembledAll (c : Tac.Class) : Nat → List Tac.Method → List Body → Prop
  | nil (n : Nat) : AssembledAll c n [] []
  | cons {n : Nat} {m : Tac.Method} {b : Body} {os : List Outcome} {ms : List Tac.Method}
      {bs : List Body} : Assembled c m n os b → AssembledAll c b.next ms bs →
      AssembledAll c n (m :: ms) (b :: bs)

variable {c : Tac.Class} {m : Tac.Method} {n : Nat} {d : Depth} {os : List Outcome} {o : Outcome}
  {method : String} {code : List Instr} {part : List (Line Opcode)}

namespace Depth

theorem Sound.of_step? {d' : Depth} {x : Line Opcode} (hx : d.step? x = some d') : d'.Sound := by
  obtain ⟨hpos, rfl⟩ := step?_eq_some.1 hx
  exact ⟨hpos, Int.le_max_right _ _⟩

theorem Sound.applyAll (h : d.Sound) : (d.applyAll part).1.Sound := by
  induction part generalizing d with
  | nil => exact h
  | cons x part ih =>
    simp only [Depth.applyAll]
    cases hx : d.step? x with
    | none => exact h
    | some d' => exact ih (.of_step? hx)

theorem Sound.follow (h : d.Sound) (o : Outcome) : (d.follow o).Sound := by
  cases o with
  | ok part => exact h.applyAll
  | error f => exact h

/-- A comment changes nothing. -/
theorem Sound.applyAll_comment (h : d.Sound) (text : String) :
    d.applyAll [Line.comment (α := Opcode) text] = (d, true) := by
  have hstep : d.step? (Line.comment (α := Opcode) text) = some d := by
    refine step?_eq_some.2 ⟨by simpa [Line.delta] using h.nonneg, ?_⟩
    simp [Line.delta, Int.max_eq_left h.le_max]
  simp only [Depth.applyAll, hstep]

theorem Sound.applyAll_fst (h : d.Sound) (o : Outcome) :
    (d.applyAll (linesOf o)).1 = d.follow o := by
  cases o with
  | ok part => rfl
  | error f => rw [linesOf, h.applyAll_comment, Depth.follow]

theorem Sound.overdraws_iff (h : d.Sound) (o : Outcome) :
    d.Overdraws o ↔ (d.applyAll (linesOf o)).2 = false := by
  cases o with
  | error f =>
    rw [linesOf, h.applyAll_comment]
    exact iff_of_false id Bool.noConfusion
  | ok part =>
    rw [← Bool.not_eq_true, linesOf]
    constructor
    · rintro ⟨k, hk⟩ hfits
      have hbounds := bounds_of_applyAll (Prod.ext rfl hfits) h.nonneg h.le_max k
      omega
    · intro hfits
      by_contra hno
      refine hfits (applyAll_of_nonneg fun k ↦ ?_)
      exact Int.not_lt.1 fun hk ↦ hno ⟨k, hk⟩

theorem Overdraws.failure?_eq (h : d.Overdraws o) : failure? o = none := by
  cases o with
  | ok part => rfl
  | error f => exact h.elim

end Depth

theorem failures_cons (o : Outcome) (os : List Outcome) :
    failures (o :: os) = (failure? o).toList ++ failures os := by
  cases o <;> rfl

theorem track_cons (method : String) (d : Depth) (found : Bool) (o : Outcome) (os : List Outcome) :
    track method d found (o :: os) =
      let fits := (d.applyAll (linesOf o)).2
      let rest := track method (d.applyAll (linesOf o)).1 (found || !fits) os
      (rest.1, (failure? o).toList ++
        (if fits || found then [] else [.underflow method]) ++ rest.2) := by
  cases o <;> rfl

theorem depth_track (h : d.Sound) (found : Bool) :
    (track method d found os).1 = depthAt d os os.length := by
  induction os generalizing d found with
  | nil => rfl
  | cons o os ih =>
    rw [track_cons]
    simp only [h.applyAll_fst]
    exact ih (h.follow o) _

/-- Once an instruction has taken too much, only failures are recorded. -/
theorem findings_track_found : (track method d true os).2 = failures os := by
  induction os generalizing d with
  | nil => rfl
  | cons o os ih =>
    rw [track_cons, failures_cons]
    simp only [Bool.or_true, Bool.true_or, if_true, List.append_nil, ih]

theorem overdrawsAt_zero : OverdrawsAt d (o :: os) 0 ↔ d.Overdraws o := by
  simp [OverdrawsAt, depthAt]

theorem logged_track (h : d.Sound) : Logged method d os (track method d false os).2 := by
  induction os generalizing d with
  | nil => exact .never fun k ⟨o, ho, _⟩ ↦ absurd ho nofun
  | cons o os ih =>
    rw [track_cons]
    by_cases ho : d.Overdraws o
    · have hfits := (h.overdraws_iff o).1 ho
      have hzero : OverdrawsAt d (o :: os) 0 := overdrawsAt_zero.2 ho
      have hfirst : Logged method d (o :: os) _ := .first 0 hzero nofun
      rw [List.take_zero, List.drop_zero, failures_cons, ho.failure?_eq] at hfirst
      simpa [hfits, findings_track_found, ho.failure?_eq, failures] using hfirst
    · have hfits : (d.applyAll (linesOf o)).2 = true := by
        rwa [h.overdraws_iff, Bool.not_eq_false] at ho
      simp only [hfits, h.applyAll_fst, Bool.not_true, Bool.or_false, if_true, List.append_nil]
      have hrest := ih (h.follow o)
      generalize (track method (d.follow o) false os).2 = rest at hrest
      cases hrest with
      | never hno =>
        rw [← failures_cons]
        refine .never fun k ↦ ?_
        cases k with
        | zero => exact mt overdrawsAt_zero.1 ho
        | succ k => exact hno k
      | first k hk hbefore =>
        rw [← List.append_assoc, ← failures_cons]
        refine .first (k + 1) hk fun j hj ↦ ?_
        cases j with
        | zero => exact mt overdrawsAt_zero.1 ho
        | succ j => exact hbefore j (Nat.lt_of_succ_lt_succ hj)

theorem getElem?_outcomes (c : Tac.Class) (m : Tac.Method) (n : Nat) (code : List Instr) (k : Nat) :
    (outcomes c m n code).1[k]? =
      code[k]?.map fun i ↦ (instr c m (numberAt c m n code k) i).1 := by
  induction code generalizing n k with
  | nil => rfl
  | cons i is ih =>
    rw [outcomes_cons]
    cases k with
    | zero => rfl
    | succ k => exact ih (instr c m n i).2 k

theorem next_outcomes (c : Tac.Class) (m : Tac.Method) (n : Nat) (code : List Instr) :
    (outcomes c m n code).2 = numberAt c m n code code.length := by
  induction code generalizing n with
  | nil => rfl
  | cons i is ih => exact ih (instr c m n i).2

theorem sound_start : ({} : Depth).Sound := ⟨Int.le_refl 0, Int.le_refl 0⟩

theorem assembled_body (c : Tac.Class) (m : Tac.Method) (n : Nat) :
    Assembled c m n (outcomes c m n m.code).1 (body c n m) where
  outcome := getElem?_outcomes c m n m.code
  lines := lines_body c m n
  maxDepth := congrArg Depth.max (depth_track sound_start false)
  findings := logged_track sound_start
  next := next_outcomes c m n m.code

theorem assembledAll_bodies (c : Tac.Class) (n : Nat) (ms : List Tac.Method) :
    AssembledAll c n ms (bodies c n ms) := by
  induction ms generalizing n with
  | nil => exact .nil n
  | cons m ms ih => exact .cons (assembled_body c m n) (ih _)

end Jasmin

theorem reasons_closeBody {ret : ValType} {code : List Instr} :
    (closeBody ret code).filterMap Instr.reason? = code.filterMap Instr.reason? := by
  unfold closeBody
  split
  · exact (List.filterMap_append ..).trans (List.append_nil _)
  · rfl

theorem Symbols.announced_lowerMethods (t : Symbols) (n : Numbering) (ms : List MethodDecl) :
    (t.lowerMethods n ms).2.map Finding.unsupported? =
      (((t.lowerMethods n ms).1.flatMap (·.code)).filterMap Instr.reason?).map some := by
  induction ms generalizing n with
  | nil => rfl
  | cons m ms ih =>
    have hfindings : (t.lowerMethods n (m :: ms)).2 =
        (m.lower t n).findings ++ (t.lowerMethods (m.lower t n).next ms).2 := rfl
    have hcode : (t.lowerMethods n (m :: ms)).1.flatMap (·.code) =
        closeBody (.ofTy m.ret.ty) (m.lower t n).code ++
          (t.lowerMethods (m.lower t n).next ms).1.flatMap (·.code) := rfl
    have hbody := Lower.announced.lowerStmts ⟨t, t.method? m.name.name⟩ m.body n
    rw [hfindings, hcode, List.map_append, List.filterMap_append, List.map_append,
      reasons_closeBody, ih]
    exact congrArg (· ++ _) hbody

/-- Lowering records one finding for each placeholder that it leaves, in order. Assembly shows each
instruction or marks it as failed, and records the failures in order and, once a method, the first
overdraft of the stack. -/
theorem failures_reported :
    (∀ p : Program, p.lower.2.map Finding.unsupported? =
      ((p.lower.1.methods.flatMap (·.code)).filterMap Instr.reason?).map some) ∧
    ∀ (c : Tac.Class) (indent : Nat), ∃ bs, Jasmin.AssembledAll c 0 c.methods bs ∧
      Jasmin.assemble c indent =
        (String.join ((Jasmin.classLines c indent bs).map (· ++ "\n")), bs.flatMap (·.findings)) :=
  ⟨fun p ↦ p.symbols.announced_lowerMethods {} p.cls.methods,
    fun c _ ↦ ⟨Jasmin.bodies c 0 c.methods, Jasmin.assembledAll_bodies c 0 c.methods, rfl⟩⟩

end MiniJava

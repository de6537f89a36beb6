import MiniJava.Proofs.Assembly.BodySafe

namespace MiniJava.Jasmin

open Tac Lower

def Line.target? : Line Opcode → Option String
  | .op o _ => o.target?
  | .label _ | .comment _ => none

def lineLabels (part : List (Line Opcode)) : List String := part.filterMap Line.label?

def lineTargets (part : List (Line Opcode)) : List String := part.filterMap Line.target?

variable {Γ : String → Option Nat} {c : Tac.Class} {m : Tac.Method} {i : Instr}
  {code code' : List Instr} {part part' : List (Line Opcode)} {a b n d e : Nat} {l : String}

@[simp] theorem lineLabels_append (part part' : List (Line Opcode)) :
    lineLabels (part ++ part') = lineLabels part ++ lineLabels part' := List.filterMap_append

@[simp] theorem lineTargets_append (part part' : List (Line Opcode)) :
    lineTargets (part ++ part') = lineTargets part ++ lineTargets part' := List.filterMap_append

@[simp] theorem lineTargets_nil : lineTargets [] = [] := rfl

@[simp] theorem lineTargets_cons (x : Line Opcode) (part : List (Line Opcode)) :
    lineTargets (x :: part) = x.target?.toList ++ lineTargets part := by
  rw [lineTargets, List.filterMap_cons]
  cases x.target? <;> rfl

structure Marks (a b : Nat) (code : List Instr) (part : List (Line Opcode)) : Prop where
  le : a ≤ b
  nodup : (lineLabels part).Nodup
  origin : ∀ l ∈ lineLabels part,
    l ∈ labelNames code ∨ ∃ k, a ≤ k ∧ k < b ∧ (l = trueLabel k ∨ l = endLabel k)

namespace Marks

theorem nil (n : Nat) : Marks n n [] [] := ⟨Nat.le_refl n, List.nodup_nil, nofun⟩

theorem append (h : Marks a n code part) (h' : Marks n b code' part') (ha : Apart (code ++ code'))
    (hu : (labelNames (code ++ code')).Nodup) : Marks a b (code ++ code') (part ++ part') where
  le := Nat.le_trans h.le h'.le
  nodup := by
    rw [lineLabels_append]
    refine List.nodup_append.2 ⟨h.nodup, h'.nodup, ?_⟩
    rintro l hl _ hl' rfl
    rw [labelNames_append] at hu
    have hapart (hc : l ∈ labelNames code ∨ l ∈ labelNames code') :=
      ha l (by simpa using hc)
    -- A label of the code is told from one of a comparison by its stem, two of comparisons by
    -- their numbers.
    rcases h.origin l hl with hc | ⟨j, hj, hjn, hlj⟩
    · rcases h'.origin l hl' with hc' | ⟨k, hk, hkb, hlk⟩
      · exact (List.nodup_append.1 hu).2.2 l hc l hc' rfl
      · have hne := hapart (.inl hc) k
        exact hlk.elim hne.1 hne.2
    · rcases h'.origin l hl' with hc' | ⟨k, hk, hkb, hlk⟩
      · have hne := hapart (.inr hc') j
        exact hlj.elim hne.1 hne.2
      · have hjk : j = k := by
          rcases hlj with rfl | rfl <;> rcases hlk with hlk | hlk
          · exact trueLabel_inj.1 hlk
          · exact absurd hlk trueLabel_ne_endLabel
          · exact absurd hlk.symm trueLabel_ne_endLabel
          · exact endLabel_inj.1 hlk
        omega
  origin l hl := by
    have hle := h.le
    have hle' := h'.le
    rw [lineLabels_append, List.mem_append] at hl
    rw [labelNames_append, List.mem_append]
    rcases hl with hl | hl
    · rcases h.origin l hl with hc | ⟨k, hk, hkb, hlk⟩
      · exact .inl (.inl hc)
      · exact .inr ⟨k, by omega, by omega, hlk⟩
    · rcases h'.origin l hl with hc | ⟨k, hk, hkb, hlk⟩
      · exact .inl (.inr hc)
      · exact .inr ⟨k, by omega, by omega, hlk⟩

theorem unlabelled (h : Marks a b code part) (hp : lineLabels part' = []) :
    Marks a b code (part ++ part') := by
  have heq : lineLabels (part ++ part') = lineLabels part := by
    rw [lineLabels_append, hp, List.append_nil]
  exact ⟨h.le, heq ▸ h.nodup, heq ▸ h.origin⟩

end Marks

theorem comparisons_of_label? (h : i.label? = some l) : i.comparisons = 0 := by
  obtain rfl := label_of_label?_eq_some h
  rfl

/-- An instruction without lines may have used up a number. -/
theorem le_next_instr (c : Tac.Class) (m : Tac.Method) (n : Nat) (i : Instr) :
    n ≤ (instr c m n i).2 := by
  cases i with
  | assign dest t r =>
    cases dest with
    | elem array index ty =>
      simp only [instr]
      split
      · exact Nat.le_refl n
      · exact Nat.le_add_right n _
    | lit | var | param | this | cls => exact Nat.le_add_right n _
  | branch cond l => cases cond <;> exact Nat.le_refl n
  | «return» t x => cases x <;> exact Nat.le_refl n
  | putField | call | goto | label | invalid => exact Nat.le_refl n

theorem marks_instr (c : Tac.Class) (m : Tac.Method) (n : Nat) (i : Instr) :
    Marks n (instr c m n i).2 [i] (linesOf (instr c m n i).1) := by
  have hle := le_next_instr c m n i
  cases h : (instr c m n i).1 with
  | error f => exact ⟨hle, List.nodup_nil, nofun⟩
  | ok part =>
    have hlabels : lineLabels part = _ := labels_instr h
    have hnext := next_instr h
    cases hi : i.label? with
    | some l =>
      have hzero := comparisons_of_label? hi
      have hl : lineLabels part = [l] := by simp [hlabels, hi, hnext, hzero]
      exact ⟨hle, by simp [linesOf, hl], fun l' hl' ↦ .inl (by simpa [linesOf, hl, hi] using hl')⟩
    | none =>
      by_cases hzero : i.comparisons = 0
      · have hl : lineLabels part = [] := by simp [hlabels, hi, hnext, hzero]
        exact ⟨hle, by simp [linesOf, hl], fun l' hl' ↦ by simp [linesOf, hl] at hl'⟩
      · have hl : lineLabels part = [trueLabel n, endLabel n] := by
          simp [hlabels, hi, hnext, hzero]
        refine ⟨hle, by simpa [linesOf, hl] using nodup_compare n, fun l' hl' ↦ .inr ⟨n, ?_⟩⟩
        exact ⟨Nat.le_refl n, by omega, by simpa [linesOf, hl] using hl'⟩

theorem marks_outcomes (c : Tac.Class) (m : Tac.Method) (n : Nat) (ha : Apart code)
    (hu : (labelNames code).Nodup) :
    Marks n (outcomes c m n code).2 code ((outcomes c m n code).1.flatMap linesOf) := by
  induction code generalizing n with
  | nil => exact .nil n
  | cons i is ih =>
    have his : Apart is := fun l hl ↦ ha l (by simp [hl])
    have hrest := ih (instr c m n i).2 his (List.nodup_append.1 (labelNames_cons i is ▸ hu)).2.1
    exact (marks_instr c m n i).append hrest ha hu

theorem lines_body (c : Tac.Class) (m : Tac.Method) (n : Nat) :
    (body c n m).lines = (outcomes c m n m.code).1.flatMap linesOf ++
      if m.isConstructor && !m.endsWithReturn then [returnLine .void] else [] := by
  simp only [body]
  split
  · rfl
  · exact (List.append_nil _).symm

theorem marks_body (c : Tac.Class) (m : Tac.Method) (n : Nat) (ha : Apart m.code)
    (hu : (labelNames m.code).Nodup) :
    Marks n (body c n m).next m.code (body c n m).lines := by
  rw [lines_body]
  refine (marks_outcomes c m n ha hu).unlabelled ?_
  split <;> rfl

theorem mem_bodies {ms : List Tac.Method} {b : Body} (h : b ∈ bodies c n ms) :
    ∃ m ∈ ms, ∃ k, b = body c k m := by
  induction ms generalizing n with
  | nil => exact absurd h List.not_mem_nil
  | cons m ms ih =>
    rcases List.mem_cons.1 h with h | h
    · exact ⟨m, List.mem_cons_self, n, h⟩
    · obtain ⟨m', hm', h⟩ := ih h
      exact ⟨m', List.mem_cons_of_mem m hm', h⟩

/-- Comparisons are numbered through the class, so no method repeats a label of another. -/
theorem marks_bodies (c : Tac.Class) (ms : List Tac.Method) (n : Nat)
    (ha : Apart (ms.flatMap (·.code))) (hu : (labelNames (ms.flatMap (·.code))).Nodup) :
    ∃ b, Marks n b (ms.flatMap (·.code)) ((bodies c n ms).flatMap (·.lines)) := by
  induction ms generalizing n with
  | nil => exact ⟨n, .nil n⟩
  | cons m ms ih =>
    rw [List.flatMap_cons] at ha hu ⊢
    have hm : Apart m.code := fun l hl ↦ ha l (by simp [hl])
    have hms : Apart (ms.flatMap (·.code)) := fun l hl ↦ ha l (by simp [hl])
    obtain ⟨hum, hums, -⟩ := List.nodup_append.1 (labelNames_append _ _ ▸ hu)
    obtain ⟨b, hb⟩ := ih (body c n m).next hms hums
    exact ⟨b, (marks_body c m n hm hum).append hb ha hu⟩

/-- Jumps go to labels that a depth is known of. -/
theorem Levels.target_known {t u : Int} (h : Levels Γ d t part e u) (hl : l ∈ lineTargets part) :
    Γ l ≠ none := by
  induction h with
  | nil => exact absurd hl nofun
  | @cons d d' e t u x part _ hx _ ih =>
    rw [lineTargets_cons, List.mem_append, Option.mem_toList] at hl
    rcases hl with hl | hl
    · cases x with
      | op o δ =>
        obtain ⟨f, hf, -⟩ := hx.2.2 l hl
        simp [hf]
      | label | comment => exact absurd hl nofun
    · exact ih hl

theorem lineTargets_load {x : Operand} (h : load m x = .ok part) : lineTargets part = [] :=
  List.eq_nil_iff_forall_not_mem.2 fun _ hl ↦
    (balanced_load (Γ := fun _ ↦ none) (d := 0) h).target_known hl rfl

theorem lineTargets_loadAll {xs : List Operand} (h : loadAll m xs = .ok part) :
    lineTargets part = [] :=
  List.eq_nil_iff_forall_not_mem.2 fun _ hl ↦
    (balanced_loadAll (Γ := fun _ ↦ none) (d := 0) h).target_known hl rfl

theorem lineTargets_jumpLess {left right : Operand} (h : jumpLess m left right l = .ok part) :
    lineTargets part ⊆ [l] := by
  intro l' hl'
  have hknown := (balanced_jumpLess (Γ := fun k ↦ if k = l then some 0 else none) h
    (if_pos rfl)).target_known hl'
  by_contra hne
  exact hknown (if_neg fun he : l' = l ↦ hne (List.mem_singleton.2 he))

theorem lineTargets_call {k : Call} (h : call c m k = .ok part) : lineTargets part = [] := by
  obtain ⟨kind, ret⟩ := k
  cases kind with
  | static cls method args =>
    obtain ⟨values, hv, h⟩ := bind_eq_ok.1 h
    obtain rfl := Except.ok.inj h
    rw [lineTargets_append, lineTargets_loadAll hv]
    rfl
  | virtual recv method args =>
    obtain ⟨cls, -, h⟩ := bind_eq_ok.1 h
    obtain ⟨receiver, hr, h⟩ := bind_eq_ok.1 h
    obtain ⟨values, hv, h⟩ := bind_eq_ok.1 h
    obtain rfl := Except.ok.inj h
    rw [lineTargets_append, lineTargets_append, lineTargets_load hr, lineTargets_loadAll hv]
    rfl
  | special recv =>
    obtain ⟨path, -, h⟩ := bind_eq_ok.1 h
    obtain ⟨receiver, hr, h⟩ := bind_eq_ok.1 h
    obtain rfl := Except.ok.inj h
    rw [lineTargets_append, lineTargets_load hr]
    rfl
  | new cls =>
    obtain rfl := Except.ok.inj h
    rfl
  | newArray x | length x =>
    obtain ⟨values, hv, h⟩ := bind_eq_ok.1 h
    obtain rfl := Except.ok.inj h
    rw [lineTargets_append, lineTargets_load hv]
    rfl

theorem lineLabels_pushBoolean (n : Nat) :
    lineLabels (pushBoolean n) = [trueLabel n, endLabel n] := rfl

theorem lineTargets_pushBoolean (n : Nat) : lineTargets (pushBoolean n) = [endLabel n] := rfl

theorem lineTargets_rhs {r : Rhs} (h : rhs c m n r = .ok part) :
    lineTargets part ⊆ lineLabels part := by
  cases r with
  | value x => simp [lineTargets_load h]
  | arith op left right =>
    obtain ⟨ls, hl, h⟩ := bind_eq_ok.1 h
    obtain ⟨rs, hr, h⟩ := bind_eq_ok.1 h
    obtain rfl := Except.ok.inj h
    rw [lineTargets_append, lineTargets_append, lineTargets_load hl, lineTargets_load hr]
    exact List.nil_subset _
  | less left right =>
    obtain ⟨test, ht, h⟩ := bind_eq_ok.1 h
    obtain rfl := Except.ok.inj h
    rw [lineTargets_append, lineTargets_pushBoolean, lineLabels_append, lineLabels_pushBoolean]
    have htest := lineTargets_jumpLess ht
    grind
  | not x =>
    obtain ⟨v, hv, h⟩ := bind_eq_ok.1 h
    obtain rfl := Except.ok.inj h
    rw [lineTargets_append, lineTargets_append, lineTargets_load hv, lineTargets_pushBoolean,
      lineLabels_append, lineLabels_pushBoolean]
    simp [Line.target?, Opcode.target?]
  | field name t =>
    obtain rfl := Except.ok.inj h
    exact List.nil_subset _
  | call k => simp [lineTargets_call h]

theorem target?_returnLine (t : ValType) : (returnLine t).target? = none := by
  unfold returnLine
  split <;> rfl

/-- Jumps of a comparison stay within its lines. -/
theorem lineTargets_instr (h : (instr c m n i).1 = .ok part) :
    lineTargets part ⊆ i.target?.toList ++ lineLabels part := by
  have hassign {a b v : List (Line Opcode)} {r : Rhs} (ha : lineTargets a = [])
      (hb : lineTargets b = []) (hr : rhs c m n r = .ok v) :
      lineTargets (a ++ v ++ b) ⊆ lineLabels (a ++ v ++ b) := by
    rw [lineTargets_append, lineTargets_append, ha, hb, List.nil_append, List.append_nil,
      lineLabels_append, lineLabels_append]
    exact List.subset_append_of_subset_left _
      (List.subset_append_of_subset_right _ (lineTargets_rhs hr))
  cases i with
  | assign dest t r =>
    cases dest with
    | elem array index ty =>
      obtain ⟨place, hp, heq⟩ := instr_elem h
      rw [heq] at h
      obtain ⟨v, hv, h⟩ := bind_eq_ok.1 h
      obtain rfl := Except.ok.inj h
      obtain ⟨as, ha, hp⟩ := bind_eq_ok.1 hp
      obtain ⟨is, hi, hp⟩ := bind_eq_ok.1 hp
      obtain rfl := Except.ok.inj hp
      have hplace : lineTargets (as ++ is) = [] := by
        rw [lineTargets_append, lineTargets_load ha, lineTargets_load hi]
        rfl
      exact hassign hplace rfl hv
    | lit | var | param | this | cls =>
      obtain ⟨v, hv, h⟩ := bind_eq_ok.1 h
      obtain ⟨line, hl, h⟩ := bind_eq_ok.1 h
      obtain rfl := Except.ok.inj h
      obtain ⟨k, j, rfl⟩ := store_eq_ok hl
      exact hassign (a := []) rfl rfl hv
  | putField name t x =>
    obtain ⟨v, hv, h⟩ := bind_eq_ok.1 h
    obtain rfl := Except.ok.inj h
    rw [lineTargets_append, lineTargets_cons, lineTargets_load hv]
    exact List.nil_subset _
  | call k =>
    obtain ⟨v, hv, h⟩ := bind_eq_ok.1 h
    obtain rfl := Except.ok.inj h
    rw [lineTargets_append, lineTargets_call hv]
    split <;> exact List.nil_subset _
  | branch cond l =>
    cases cond with
    | value x =>
      obtain ⟨v, hv, h⟩ := bind_eq_ok.1 h
      obtain rfl := Except.ok.inj h
      simp [lineTargets_load hv, Line.target?, Opcode.target?, Instr.target?]
    | less left right => exact List.subset_append_of_subset_left _ (lineTargets_jumpLess h)
  | goto l =>
    obtain rfl := Except.ok.inj h
    exact List.subset_append_left _ _
  | label l | invalid what =>
    obtain rfl := Except.ok.inj h
    exact List.nil_subset _
  | «return» t x =>
    cases x with
    | none =>
      obtain rfl := Except.ok.inj h
      simp [target?_returnLine]
    | some x =>
      obtain ⟨v, hv, h⟩ := bind_eq_ok.1 h
      obtain rfl := Except.ok.inj h
      simp [lineTargets_load hv, target?_returnLine]

theorem mem_lineLabels_outcomes (hl : l ∈ labelNames code) :
    l ∈ lineLabels ((outcomes c m n code).1.flatMap linesOf) := by
  induction code generalizing n with
  | nil => exact absurd hl nofun
  | cons i is ih =>
    rw [outcomes_cons, List.flatMap_cons, lineLabels_append, List.mem_append]
    rw [labelNames_cons, List.mem_append, Option.mem_toList] at hl
    rcases hl with hl | hl
    · obtain rfl := label_of_label?_eq_some hl
      exact .inl (List.mem_singleton_self l)
    · exact .inr (ih hl)

theorem lineTargets_outcomes (c : Tac.Class) (m : Tac.Method) (n : Nat) (code : List Instr) :
    lineTargets ((outcomes c m n code).1.flatMap linesOf) ⊆
      targetNames code ++ lineLabels ((outcomes c m n code).1.flatMap linesOf) := by
  induction code generalizing n with
  | nil => exact List.nil_subset _
  | cons i is ih =>
    have hrest := ih (instr c m n i).2
    have hfirst : lineTargets (linesOf (instr c m n i).1) ⊆
        i.target?.toList ++ lineLabels (linesOf (instr c m n i).1) := by
      cases h : (instr c m n i).1 with
      | error f => exact List.nil_subset _
      | ok part => exact lineTargets_instr h
    rw [outcomes_cons, List.flatMap_cons, lineTargets_append, lineLabels_append, targetNames_cons]
    grind

/-- Even where instructions have no lines, the labels that others jump to stay. -/
theorem lands_body (c : Tac.Class) (m : Tac.Method) (n : Nat)
    (h : targetNames m.code ⊆ labelNames m.code) :
    lineTargets (body c n m).lines ⊆ lineLabels (body c n m).lines := by
  have hreturn : lineTargets
      (if m.isConstructor && !m.endsWithReturn then [returnLine .void] else []) = [] := by
    split <;> rfl
  rw [lines_body, lineTargets_append, hreturn, List.append_nil, lineLabels_append]
  refine List.subset_append_of_subset_left _ fun l hl ↦ ?_
  rcases List.mem_append.1 (lineTargets_outcomes c m n m.code hl) with hl | hl
  · exact mem_lineLabels_outcomes (h hl)
  · exact hl

end MiniJava.Jasmin

import MiniJava.Tac.Slots

namespace MiniJava

theorem findIdx?_of_nodup {α : Type} {name : α → String} {l : List α} (h : (l.map name).Nodup)
    {i : Nat} {a : α} (ha : l[i]? = some a) : l.findIdx? (name · == name a) = some i := by
  obtain ⟨hlt, hi⟩ := List.getElem?_eq_some_iff.1 ha
  refine List.findIdx?_eq_some_iff_getElem.2 ⟨hlt, by rw [hi, beq_self_eq_true], ?_⟩
  intro j hj hname
  have hnames : (l.map name)[j]? = (l.map name)[i]? := by
    rw [List.getElem?_map, List.getElem?_map, ha, List.getElem?_eq_getElem (Nat.lt_trans hj hlt)]
    exact congrArg some (eq_of_beq hname)
  have hjlt : j < (l.map name).length := by simpa using Nat.lt_trans hj hlt
  exact Nat.ne_of_lt hj ((List.getElem?_inj hjlt h).1 hnames)

namespace Tac

def Operand.name? : Operand → Option String
  | .var name _ | .param _ name _ => some name
  | .lit .. | .elem .. | .this _ | .cls _ => none

namespace Slots

variable {t : Slots} {vs : List Var} {x y : String} {i : Nat} {ty ty' : ValType}

theorem mem_names_declare {v : Var} : x ∈ (t.declare v).names ↔ x ∈ t.names ∨ x = v.name := by
  rw [names_declare]
  split
  · next hv => exact ⟨.inl, fun hx ↦ hx.elim id fun heq ↦ heq ▸ hv⟩
  · rw [List.mem_append, List.mem_singleton]

theorem mem_names_declareAll :
    x ∈ (t.declareAll vs).names ↔ x ∈ t.names ∨ x ∈ vs.map (·.name) := by
  induction vs generalizing t with
  | nil => simp [declareAll]
  | cons v vs ih =>
    have hrest : x ∈ (t.declareAll (v :: vs)).names ↔
        x ∈ (t.declare v).names ∨ x ∈ vs.map (·.name) := ih
    rw [hrest, mem_names_declare, List.map_cons, List.mem_cons, or_assoc]

theorem nodup_names_declareAll (h : t.names.Nodup) (vs : List Var) :
    (t.declareAll vs).names.Nodup := by
  induction vs generalizing t with
  | nil => exact h
  | cons v vs ih => exact ih (nodup_names_declare h v)

theorem nodup_names_ofCode (receiver : Option String) (params : List Var) (code : List Instr) :
    (ofCode receiver params code).names.Nodup :=
  nodup_names_declareAll (nodup_names_declareAll (nodup_names_start receiver) _) _

theorem nodup_names_start_append {receiver : Option String} {names : List String}
    (h : names.Nodup) (hthis : "this" ∉ names) : ((start receiver).names ++ names).Nodup := by
  cases receiver with
  | none => exact h
  | some cls => exact List.nodup_cons.2 ⟨hthis, h⟩

theorem vars_declareAll (t : Slots) (vs : List Var) : t.vars <+: (t.declareAll vs).vars := by
  induction vs generalizing t with
  | nil => exact List.prefix_refl _
  | cons v vs ih => exact (vars_declare t v).trans (ih (t.declare v))

/-- Variables with new names of their own follow those that are there. -/
theorem vars_declareAll_of_nodup (h : (t.names ++ vs.map (·.name)).Nodup) :
    (t.declareAll vs).vars = t.vars ++ vs := by
  induction vs generalizing t with
  | nil => exact (List.append_nil _).symm
  | cons v vs ih =>
    have hv : v.name ∉ t.names := fun hmem ↦
      (List.nodup_append.1 h).2.2 _ hmem _ List.mem_cons_self rfl
    have hdeclare : t.declare v = ⟨t.vars ++ [v]⟩ := if_neg hv
    have hrest := ih (t := t.declare v) (by rw [names_declare, if_neg hv]; simpa using h)
    have hcons : t.declareAll (v :: vs) = (t.declare v).declareAll vs := rfl
    rw [hcons, hrest, hdeclare, List.append_assoc, List.singleton_append]

theorem mem_vars_declareAll {v : Var} (h : v ∈ (t.declareAll vs).vars) : v ∈ t.vars ∨ v ∈ vs := by
  induction vs generalizing t with
  | nil => exact .inl h
  | cons w vs ih =>
    rcases ih h with h | h
    · unfold declare at h
      split at h
      · exact .inl h
      · rcases List.mem_append.1 h with h | h
        · exact .inl h
        · exact .inr (List.mem_singleton.1 h ▸ List.mem_cons_self)
    · exact .inr (List.mem_cons_of_mem w h)

theorem get?_this (cls : String) (params : List Var) (code : List Instr) :
    (ofCode (some cls) params code).get? "this" = some (0, .cls cls) := by
  obtain ⟨rest, h⟩ := (vars_declareAll (start (some cls)) params).trans
    (vars_declareAll _ (codeVars code))
  simp only [ofCode, get?, ← h]
  rfl

theorem get?_of_mem (h : x ∈ t.names) : ∃ i ty, t.get? x = some (i, ty) := by
  obtain ⟨v, hv, rfl⟩ := List.mem_map.1 h
  have hfind : (t.vars.findIdx? (·.name == v.name)).isSome := by
    rw [List.findIdx?_isSome, List.any_eq_true]
    exact ⟨v, hv, beq_self_eq_true _⟩
  obtain ⟨i, hi⟩ := Option.isSome_iff_exists.1 hfind
  obtain ⟨hlt, -⟩ := List.findIdx?_eq_some_iff_getElem.1 hi
  exact ⟨i, t.vars[i].ty, by simp [get?, hi, hlt]⟩

theorem getElem?_of_get? (h : t.get? x = some (i, ty)) : t.vars[i]? = some ⟨x, ty⟩ := by
  obtain ⟨j, hj, h⟩ := Option.bind_eq_some_iff.1 h
  obtain ⟨v, hv, h⟩ := Option.bind_eq_some_iff.1 h
  obtain ⟨rfl, rfl⟩ := Prod.mk.inj (Option.some.inj h)
  obtain ⟨hlt, hp, -⟩ := List.findIdx?_eq_some_iff_getElem.1 hj
  rw [List.getElem?_eq_getElem hlt] at hv ⊢
  obtain rfl := Option.some.inj hv
  rw [← beq_iff_eq.1 hp]

theorem eq_of_get?_eq (hx : t.get? x = some (i, ty)) (hy : t.get? y = some (i, ty')) : x = y :=
  (Var.mk.inj (Option.some.inj ((getElem?_of_get? hx).symm.trans (getElem?_of_get? hy)))).1

/-- Where each name is declared once, a variable's slot is its place. -/
theorem get?_eq_some_iff (hn : t.names.Nodup) :
    t.get? x = some (i, ty) ↔ t.vars[i]? = some ⟨x, ty⟩ := by
  refine ⟨getElem?_of_get?, fun h ↦ ?_⟩
  have hfind : t.vars.findIdx? (·.name == x) = some i := findIdx?_of_nodup hn h
  simp [get?, hfind, h]

theorem exists_get?_iff (hn : t.names.Nodup) : (∃ x ty, t.get? x = some (i, ty)) ↔ i < t.size := by
  simp only [get?_eq_some_iff hn, size]
  constructor
  · rintro ⟨x, ty, h⟩
    exact (List.getElem?_eq_some_iff.1 h).1
  · intro h
    exact ⟨t.vars[i].name, t.vars[i].ty, List.getElem?_eq_getElem h⟩

theorem lt_limit (h : t.get? x = some (i, ty)) : i < t.limit :=
  Nat.lt_of_lt_of_le (List.getElem?_eq_some_iff.1 (getElem?_of_get? h)).1 (Nat.le_max_right ..)

section

variable {receiver : Option String} {params : List Var} {code : List Instr} {v : Var}

/-- Parameters follow the receiver in their own order. -/
theorem get?_param (hn : ((start receiver).names ++ params.map (·.name)).Nodup)
    (hv : params[i]? = some v) :
    (ofCode receiver params code).get? v.name = some (receiver.toList.length + i, v.ty) := by
  have hprefix := vars_declareAll ((start receiver).declareAll params) (codeVars code)
  rw [vars_declareAll_of_nodup hn] at hprefix
  obtain ⟨rest, hrest⟩ := hprefix
  rw [get?_eq_some_iff (nodup_names_ofCode ..), ofCode, ← hrest, start, List.append_assoc,
    List.getElem?_append_right (by simp), List.length_map, Nat.add_sub_cancel_left]
  exact (List.getElem?_append_left (List.getElem?_eq_some_iff.1 hv).1).trans hv

theorem mem_vars_ofCode (h : v ∈ (ofCode receiver params code).vars) :
    v ∈ (start receiver).vars ∨ v ∈ params ∨ v ∈ codeVars code := by
  rcases mem_vars_declareAll h with h | h
  · exact (mem_vars_declareAll h).imp_right .inl
  · exact .inr (.inr h)

end

end Slots

end Tac

end MiniJava

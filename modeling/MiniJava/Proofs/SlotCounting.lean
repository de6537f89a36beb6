import Mathlib.Data.Finset.Card
import Mathlib.Data.List.Destutter
import Mathlib.Data.List.Sort
import MiniJava.Proofs.Assembly.SlotTable

namespace MiniJava.Tac

def nameCount (vs : List Var) : Nat := (vs.map (·.name)).toFinset.card

namespace Slots

def slotFor (t : Slots) (name : String) : Nat := ((t.get? name).map (·.1)).getD t.size

def inUse (t : Slots) : Finset Nat := (t.names.filterMap fun x ↦ (t.get? x).map (·.1)).toFinset

/-- Each name has a slot of its own and the type of its first declaration. The slots are numbered
in the order of first declarations, without gaps. -/
structure Allots (t : Slots) (declared : List Var) : Prop where
  held (x : String) : (∃ i ty, t.get? x = some (i, ty)) ↔ x ∈ declared.map (·.name)
  used (i : Nat) : i < t.size ↔ ∃! x, ∃ ty, t.get? x = some (i, ty)
  first {k : Nat} {v : Var} : declared[k]? = some v → v.name ∉ (declared.take k).map (·.name) →
    t.get? v.name = some (nameCount (declared.take k), v.ty)
  ordered {x y : String} {i j : Nat} {ty ty' : ValType} : t.get? x = some (i, ty) →
    t.get? y = some (j, ty') →
      (i < j ↔ (declared.map (·.name)).idxOf x < (declared.map (·.name)).idxOf y)
  size : t.size = nameCount declared
  limit : (insert 0 t.inUse).card = max 1 t.size ∧ t.limit = max 1 t.size

structure Keeps (t : Slots) : Prop where
  get? {x : String} {i : Nat} {ty : ValType} (vs : List Var) :
    t.get? x = some (i, ty) → (t.declareAll vs).get? x = some (i, ty)
  slotFor (v : Var) (vs : List Var) :
    ∃ ty, ((t.declare v).declareAll vs).get? v.name = some (t.slotFor v.name, ty)

end Slots

/-- Slots that are numbered with 16 bits, in a map, with the next number. -/
structure SlotMap where
  held : Std.HashMap String (UInt16 × ValType) := {}
  next : UInt16 := 0

namespace SlotMap

def declare (m : SlotMap) (v : Var) : UInt16 × SlotMap :=
  match m.held[v.name]? with
  | some (i, _) => (i, m)
  | none => (m.next, ⟨m.held.insert v.name (m.next, v.ty), m.next + 1⟩)

def declareAll (m : SlotMap) (vs : List Var) : SlotMap := vs.foldl (fun m v ↦ (m.declare v).2) m

def start (receiver : Option String) : SlotMap := declareAll {} (Slots.start receiver).vars

/-- How many numbers there are among those of the map and 0. -/
def distinct (m : SlotMap) : Nat :=
  ((0 :: m.held.toList.map (·.2.1)).mergeSort.destutter (· ≠ ·)).length

structure Represents (m : SlotMap) (t : Slots) : Prop where
  get? (x : String) : (m.held[x]?).map (fun a ↦ (a.1.toNat, a.2)) = t.get? x
  next : m.next.toNat = t.size
  size : m.held.size = t.size

end SlotMap

variable {t : Slots} {vs : List Var} {v : Var} {x : String} {i : Nat} {ty : ValType}

namespace Slots

theorem declareAll_append (t : Slots) (vs ws : List Var) :
    t.declareAll (vs ++ ws) = (t.declareAll vs).declareAll ws := List.foldl_append

theorem declareAll_start (receiver : Option String) :
    declareAll ⟨[]⟩ (start receiver).vars = start receiver := by
  cases receiver <;> rfl

theorem mem_names_of_get? (h : t.get? x = some (i, ty)) : x ∈ t.names :=
  List.mem_map.2 ⟨_, List.mem_of_getElem? (getElem?_of_get? h), rfl⟩

theorem get?_eq_none_iff : t.get? x = none ↔ x ∉ t.names := by
  constructor
  · intro h hx
    obtain ⟨i, ty, hi⟩ := get?_of_mem hx
    exact absurd (h.symm.trans hi) nofun
  · intro h
    exact Option.eq_none_iff_forall_ne_some.2 fun (_, _) hi ↦ h (mem_names_of_get? hi)

theorem slotFor_of_get? (h : t.get? x = some (i, ty)) : t.slotFor x = i := by
  simp [slotFor, h]

theorem slotFor_of_not_mem (h : x ∉ t.names) : t.slotFor x = t.size := by
  simp [slotFor, get?_eq_none_iff.2 h]

theorem mem_inUse : i ∈ t.inUse ↔ ∃ x ty, t.get? x = some (i, ty) := by
  rw [inUse, List.mem_toFinset, List.mem_filterMap]
  constructor
  · rintro ⟨x, -, h⟩
    obtain ⟨⟨_, ty⟩, hx, rfl⟩ := Option.map_eq_some_iff.1 h
    exact ⟨x, ty, hx⟩
  · rintro ⟨x, ty, hx⟩
    exact ⟨x, mem_names_of_get? hx, Option.map_eq_some_iff.2 ⟨_, hx, rfl⟩⟩

section

variable (hn : t.names.Nodup)

include hn

theorem size_eq_card : t.size = t.names.toFinset.card := by
  rw [List.toFinset_card_of_nodup hn, length_names]

theorem get?_declareAll (h : t.get? x = some (i, ty)) (vs : List Var) :
    (t.declareAll vs).get? x = some (i, ty) := by
  obtain ⟨rest, hrest⟩ := vars_declareAll t vs
  have hplace : t.vars[i]? = some ⟨x, ty⟩ := getElem?_of_get? h
  rw [get?_eq_some_iff (nodup_names_declareAll hn vs), ← hrest]
  exact List.getElem?_append_left (List.getElem?_eq_some_iff.1 hplace).1 ▸ hplace

theorem get?_declare_new (hv : v.name ∉ t.names) :
    (t.declare v).get? v.name = some (t.size, v.ty) := by
  have hdeclare : t.declare v = ⟨t.vars ++ [v]⟩ := if_neg hv
  rw [get?_eq_some_iff (nodup_names_declare hn v), hdeclare]
  exact List.getElem?_concat_length

theorem get?_declare_ne (hx : x ≠ v.name) : (t.declare v).get? x = t.get? x := by
  cases h : t.get? x with
  | some a => exact get?_declareAll hn h [v]
  | none =>
    rw [get?_eq_none_iff, mem_names_declare]
    rintro (hmem | rfl)
    · exact get?_eq_none_iff.1 h hmem
    · exact hx rfl

/-- The slot of a declaration is found from then on. -/
theorem get?_slotFor (v : Var) : ∃ ty, (t.declare v).get? v.name = some (t.slotFor v.name, ty) := by
  by_cases hv : v.name ∈ t.names
  · have hdeclare : t.declare v = t := if_pos hv
    obtain ⟨i, ty, h⟩ := get?_of_mem hv
    rw [hdeclare, slotFor_of_get? h]
    exact ⟨ty, h⟩
  · rw [slotFor_of_not_mem hv]
    exact ⟨v.ty, get?_declare_new hn hv⟩

theorem keeps : t.Keeps where
  get? vs h := get?_declareAll hn h vs
  slotFor v vs := by
    obtain ⟨ty, h⟩ := get?_slotFor hn v
    exact ⟨ty, get?_declareAll (nodup_names_declare hn v) h vs⟩

theorem existsUnique_get?_iff : i < t.size ↔ ∃! x, ∃ ty, t.get? x = some (i, ty) := by
  rw [← exists_get?_iff hn]
  constructor
  · rintro ⟨x, ty, h⟩
    exact ⟨x, ⟨ty, h⟩, fun y ⟨_, hy⟩ ↦ eq_of_get?_eq hy h⟩
  · rintro ⟨x, ⟨ty, h⟩, -⟩
    exact ⟨x, ty, h⟩

theorem inUse_eq_range : t.inUse = Finset.range t.size := by
  ext i
  rw [mem_inUse, exists_get?_iff hn, Finset.mem_range]

/-- Slot 0 is in use as soon as any is. -/
theorem card_inUse : (insert 0 t.inUse).card = max 1 t.size := by
  rw [inUse_eq_range hn]
  cases t.size with
  | zero => rfl
  | succ n =>
    rw [Finset.insert_eq_of_mem (Finset.mem_range.2 n.succ_pos), Finset.card_range]
    exact (Nat.max_eq_right n.succ_pos).symm

end

section

variable {declared : List Var} {k l : Nat}

theorem nodup_names_of_declared (declared : List Var) :
    (declareAll ⟨[]⟩ declared).names.Nodup :=
  nodup_names_declareAll (nodup_names_start none) declared

theorem mem_names_of_declared :
    x ∈ (declareAll ⟨[]⟩ declared).names ↔ x ∈ declared.map (·.name) := by
  rw [mem_names_declareAll]
  exact or_iff_right List.not_mem_nil

theorem size_of_declared (declared : List Var) :
    (declareAll ⟨[]⟩ declared).size = nameCount declared := by
  rw [size_eq_card (nodup_names_of_declared declared), nameCount]
  congr 1
  ext x
  rw [List.mem_toFinset, List.mem_toFinset, mem_names_of_declared]

/-- A first declaration takes the slot after those of the names before it. -/
theorem get?_of_first (hv : declared[k]? = some v)
    (hnew : v.name ∉ (declared.take k).map (·.name)) :
    (declareAll ⟨[]⟩ declared).get? v.name = some (nameCount (declared.take k), v.ty) := by
  obtain ⟨hlt, hget⟩ := List.getElem?_eq_some_iff.1 hv
  have hn : (declareAll ⟨[]⟩ (declared.take k)).names.Nodup := nodup_names_of_declared _
  have hsplit : declared.take k ++ v :: declared.drop (k + 1) = declared := by
    rw [← hget, ← List.drop_eq_getElem_cons, List.take_append_drop]
  have hrun : declareAll ⟨[]⟩ declared =
      ((declareAll ⟨[]⟩ (declared.take k)).declare v).declareAll (declared.drop (k + 1)) := by
    conv_lhs => rw [← hsplit, declareAll_append]
    rfl
  rw [hrun, ← size_of_declared]
  exact get?_declareAll (nodup_names_declare hn v)
    (get?_declare_new hn (mt mem_names_of_declared.1 hnew)) _

theorem names_take_subset (declared : List Var) (h : k ≤ l) :
    ((declared.take k).map (·.name)).toFinset ⊆
      ((declared.take l).map (·.name)).toFinset := by
  intro x hx
  rw [List.mem_toFinset] at hx ⊢
  exact List.map_subset _ (List.take_subset_take_left _ h) hx

theorem not_mem_take_idxOf (hx : x ∈ declared.map (·.name)) :
    x ∉ (declared.take ((declared.map (·.name)).idxOf x)).map (·.name) := by
  rw [List.map_take, List.mem_take_iff_idxOf_lt hx]
  exact Nat.lt_irrefl _

/-- The count of names grows at each first declaration. -/
theorem nameCount_take_lt (hx : x ∈ declared.map (·.name))
    (h : (declared.map (·.name)).idxOf x < l) :
    nameCount (declared.take ((declared.map (·.name)).idxOf x)) <
      nameCount (declared.take l) := by
  refine Finset.card_lt_card ?_
  refine (Finset.ssubset_iff_of_subset (names_take_subset declared (Nat.le_of_lt h))).2 ⟨x, ?_, ?_⟩
  · rwa [List.mem_toFinset, List.map_take, List.mem_take_iff_idxOf_lt hx]
  · rw [List.mem_toFinset]
    exact not_mem_take_idxOf hx

/-- A slot is the count of names before the first declaration of its own. -/
theorem eq_nameCount_of_get? (h : (declareAll ⟨[]⟩ declared).get? x = some (i, ty)) :
    x ∈ declared.map (·.name) ∧
      i = nameCount (declared.take ((declared.map (·.name)).idxOf x)) := by
  have hx : x ∈ declared.map (·.name) := mem_names_of_declared.1 (mem_names_of_get? h)
  have hplace : (declared.map (·.name))[(declared.map (·.name)).idxOf x]? = some x :=
    List.getElem?_idxOf hx
  rw [List.getElem?_map] at hplace
  obtain ⟨v, hv, rfl⟩ := Option.map_eq_some_iff.1 hplace
  have hfirst := get?_of_first hv (not_mem_take_idxOf hx)
  exact ⟨hx, (Prod.mk.inj (Option.some.inj (h.symm.trans hfirst))).1⟩

theorem allots (declared : List Var) : (declareAll ⟨[]⟩ declared).Allots declared where
  held x := by
    constructor
    · rintro ⟨i, ty, h⟩
      exact (eq_nameCount_of_get? h).1
    · intro hx
      exact get?_of_mem (mem_names_of_declared.2 hx)
  used _ := existsUnique_get?_iff (nodup_names_of_declared declared)
  first := get?_of_first
  ordered := by
    intro x y i j ty ty' hx hy
    obtain ⟨hmem, rfl⟩ := eq_nameCount_of_get? hx
    obtain ⟨-, rfl⟩ := eq_nameCount_of_get? hy
    refine ⟨fun hlt ↦ ?_, nameCount_take_lt hmem⟩
    by_contra hle
    have hnames := names_take_subset declared (Nat.not_lt.1 hle)
    exact Nat.not_lt.2 (Finset.card_le_card hnames) hlt
  size := size_of_declared declared
  limit := ⟨card_inUse (nodup_names_of_declared declared), rfl⟩

end

end Slots

namespace SlotMap

variable {m : SlotMap}

theorem declareAll_append (m : SlotMap) (vs ws : List Var) :
    m.declareAll (vs ++ ws) = (m.declareAll vs).declareAll ws := List.foldl_append

/-- Sorted numbers that are equal stand next to each other. -/
theorem distinct_eq_card (m : SlotMap) :
    m.distinct = (0 :: m.held.toList.map (·.2.1)).toFinset.card := by
  have hsorted (l : List UInt16) : l.mergeSort.Pairwise (· ≤ ·) := List.pairwise_mergeSort' _ l
  rw [distinct, (hsorted _).destutter_eq_dedup, ← List.card_toFinset,
    List.toFinset_eq_of_perm _ _ (List.mergeSort_perm ..)]

namespace Represents

theorem nil : Represents {} ⟨[]⟩ where
  get? x := by rw [Std.HashMap.getElem?_empty]; rfl
  next := rfl
  size := Std.HashMap.size_empty

theorem slotFor (h : m.Represents t) (v : Var) : (m.declare v).1.toNat = t.slotFor v.name := by
  rw [Slots.slotFor, ← h.get? v.name, ← h.next, declare]
  cases m.held[v.name]? <;> rfl

/-- The next number does not wrap around while there are at most 65535 names. -/
theorem step (h : m.Represents t) (hn : t.names.Nodup) (hv : (t.declare v).size ≤ 65535) :
    (m.declare v).2.Represents (t.declare v) := by
  by_cases hmem : v.name ∈ t.names
  · have hdeclare : t.declare v = t := if_pos hmem
    obtain ⟨i, ty, hget⟩ := Slots.get?_of_mem hmem
    rw [← h.get?] at hget
    obtain ⟨a, ha, -⟩ := Option.map_eq_some_iff.1 hget
    rw [hdeclare, declare, ha]
    exact h
  · have hdeclare : t.declare v = ⟨t.vars ++ [v]⟩ := if_neg hmem
    have hsize : (t.declare v).size = t.size + 1 := by
      rw [hdeclare]
      exact List.length_append
    have hget : m.held[v.name]? = none :=
      Option.map_eq_none_iff.1 ((h.get? v.name).trans (Slots.get?_eq_none_iff.2 hmem))
    rw [declare, hget]
    refine ⟨fun x ↦ ?_, ?_, ?_⟩
    · rw [Std.HashMap.getElem?_insert]
      by_cases hx : v.name = x
      · subst hx
        rw [Slots.get?_declare_new hn hmem, ← h.next]
        simp
      · rw [Slots.get?_declare_ne hn (Ne.symm hx), ← h.get? x]
        simp [hx]
    · rw [UInt16.toNat_add, h.next, hsize]
      exact Nat.mod_eq_of_lt (Nat.lt_succ_of_le (hsize ▸ hv))
    · have hno : v.name ∉ m.held := by simpa using hget
      rw [Std.HashMap.size_insert, if_neg hno, h.size, hsize]

theorem run (h : m.Represents t) (hn : t.names.Nodup) (hvs : (t.declareAll vs).size ≤ 65535) :
    (m.declareAll vs).Represents (t.declareAll vs) := by
  induction vs generalizing m t with
  | nil => exact h
  | cons v vs ih =>
    -- Variables are only added, so that the bound on all of them holds on the way there.
    have hstep : (t.declare v).size ≤ 65535 :=
      Nat.le_trans (Slots.vars_declareAll (t.declare v) vs).length_le hvs
    exact ih (h.step hn hstep) (Slots.nodup_names_declare hn v) hvs

theorem image_slots (h : m.Represents t) :
    (m.held.toList.map (·.2.1)).toFinset.image UInt16.toNat = t.inUse := by
  ext i
  simp only [Slots.mem_inUse, ← h.get?, Option.map_eq_some_iff, Finset.mem_image,
    List.mem_toFinset, List.mem_map]
  constructor
  · rintro ⟨_, ⟨⟨x, k, ty⟩, hx, rfl⟩, rfl⟩
    exact ⟨x, ty, (k, ty), Std.HashMap.mem_toList_iff_getElem?_eq_some.1 hx, rfl⟩
  · rintro ⟨x, ty, a, ha, hk⟩
    exact ⟨a.1, ⟨(x, a), Std.HashMap.mem_toList_iff_getElem?_eq_some.2 ha, rfl⟩,
      congrArg Prod.fst hk⟩

theorem distinct (h : m.Represents t) (hn : t.names.Nodup) : m.distinct = t.limit := by
  calc m.distinct = (0 :: m.held.toList.map (·.2.1)).toFinset.card := distinct_eq_card m
    _ = ((0 :: m.held.toList.map (·.2.1)).toFinset.image UInt16.toNat).card :=
      (Finset.card_image_of_injective _ fun _ _ ↦ UInt16.toNat_inj.1).symm
    _ = (insert 0 t.inUse).card := by
      rw [List.toFinset_cons, Finset.image_insert, h.image_slots, UInt16.toNat_zero]
    _ = t.limit := Slots.card_inUse hn

/-- What a declaration returns is found from then on. -/
theorem getElem?_declare (h : m.Represents t) (hn : t.names.Nodup) (v : Var)
    (hvs : ((t.declare v).declareAll vs).size ≤ 65535) :
    ∃ ty, ((m.declare v).2.declareAll vs).held[v.name]? = some ((m.declare v).1, ty) := by
  obtain ⟨ty, hget⟩ := (Slots.keeps hn).slotFor v vs
  have hall : (t.declareAll (v :: vs)).size ≤ 65535 := hvs
  have hrun : ((m.declare v).2.declareAll vs).Represents ((t.declare v).declareAll vs) :=
    h.run hn hall
  rw [← hrun.get?, ← h.slotFor] at hget
  obtain ⟨a, ha, heq⟩ := Option.map_eq_some_iff.1 hget
  obtain ⟨hslot, rfl⟩ := Prod.mk.inj heq
  rw [← UInt16.toNat_inj.1 hslot]
  exact ⟨a.2, ha⟩

end Represents

end SlotMap

/-- The slots that a method's variables get are counted without gaps in the order of their first
declarations, and they keep them. Numbers of 16 bits are enough for 65535 names. -/
theorem slots_counted (receiver : Option String) (vs : List Var) :
    let declared := (Slots.start receiver).vars ++ vs
    let t := (Slots.start receiver).declareAll vs
    t.Allots declared ∧ t.Keeps ∧
      (nameCount declared ≤ 65535 →
        let m := (SlotMap.start receiver).declareAll vs
        m.Represents t ∧ m.distinct = max 1 m.held.size ∧
          ∀ v ws, nameCount (declared ++ v :: ws) ≤ 65535 →
            ∃ ty, ((m.declare v).2.declareAll ws).held[v.name]? = some ((m.declare v).1, ty)) := by
  intro declared t
  have hall : t = Slots.declareAll ⟨[]⟩ declared := by
    rw [Slots.declareAll_append, Slots.declareAll_start]
  have hsize (ws : List Var) : (t.declareAll ws).size = nameCount (declared ++ ws) := by
    rw [hall, ← Slots.declareAll_append, Slots.size_of_declared]
  have hn : t.names.Nodup := hall ▸ Slots.nodup_names_of_declared declared
  refine ⟨hall ▸ Slots.allots declared, Slots.keeps hn, fun hcount ↦ ?_⟩
  have hm : ((SlotMap.start receiver).declareAll vs).Represents t := by
    rw [SlotMap.start, ← SlotMap.declareAll_append, hall]
    refine SlotMap.Represents.nil.run List.nodup_nil ?_
    rwa [Slots.size_of_declared]
  refine ⟨hm, ?_, fun v ws hws ↦ ?_⟩
  · rw [hm.distinct hn, hm.size]
    rfl
  · have hmore : ((t.declare v).declareAll ws).size = nameCount (declared ++ v :: ws) :=
      hsize (v :: ws)
    exact hm.getElem?_declare hn v (hmore ▸ hws)

theorem slots_counted_repeated :
    let vs : List Var := [⟨"x", .int⟩, ⟨"this", .bool⟩, ⟨"y", .bool⟩, ⟨"x", .string⟩]
    let declared := (Slots.start (some "A")).vars ++ vs
    let m := (SlotMap.start (some "A")).declareAll vs
    nameCount declared = 3 ∧ m.distinct = 3 ∧
      (m.held["x"]?).map (fun a ↦ (a.1.toNat, a.2)) = some (1, .int) ∧
      ∃ ty, ((m.declare ⟨"y", .int⟩).2.declareAll vs).held["y"]? =
        some ((m.declare ⟨"y", .int⟩).1, ty) := by
  intro vs declared m
  have hcount : nameCount declared = 3 := by decide +kernel
  have hmore : nameCount (declared ++ ⟨"y", .int⟩ :: vs) = 3 := by decide +kernel
  obtain ⟨-, -, h⟩ := slots_counted (some "A") vs
  obtain ⟨hm, hdistinct, hreturned⟩ := h (hcount.le.trans (by decide))
  refine ⟨hcount, ?_, (hm.get? "x").trans (by decide +kernel),
    hreturned ⟨"y", .int⟩ vs (hmore.le.trans (by decide))⟩
  rw [hdistinct, hm.size]
  decide +kernel

end MiniJava.Tac

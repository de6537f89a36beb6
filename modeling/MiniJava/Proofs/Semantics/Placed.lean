namespace MiniJava

def At {α : Type} (code : List α) (pc : Nat) (part : List α) : Prop :=
  ∃ before after, code = before ++ part ++ after ∧ before.length = pc

section

variable {α : Type} {code part part' : List α} {pc : Nat}

theorem At.whole (code : List α) : At code 0 code := ⟨[], [], by simp, rfl⟩

theorem At.left (h : At code pc (part ++ part')) : At code pc part := by
  obtain ⟨before, after, rfl, hb⟩ := h
  exact ⟨before, part' ++ after, by simp, hb⟩

theorem At.right (h : At code pc (part ++ part')) : At code (pc + part.length) part' := by
  obtain ⟨before, after, rfl, hb⟩ := h
  exact ⟨before ++ part, after, by simp, by simp [hb]⟩

theorem At.head {i : α} (h : At code pc (i :: part)) : code[pc]? = some i := by
  obtain ⟨before, after, rfl, rfl⟩ := h
  simp

theorem At.tail {i : α} (h : At code pc (i :: part)) : At code (pc + 1) part := by
  obtain ⟨before, after, rfl, hb⟩ := h
  exact ⟨before ++ [i], after, by simp, by simp [hb]⟩

/-- Two entries that a list names alike are one, if no name occurs twice. -/
theorem eq_of_getElem?_of_nodup {β : Type} {f : α → Option β} (h : (code.filterMap f).Nodup)
    {j k : Nat} {x y : α} {b : β} (hj : code[j]? = some x) (hk : code[k]? = some y)
    (hx : f x = some b) (hy : f y = some b) : j = k := by
  induction code generalizing j k with
  | nil => simp at hj
  | cons i is ih =>
    have hhead {n : Nat} {z z' : α} (hi : i = z) (hn : is[n]? = some z') (hz : f z = some b)
        (hz' : f z' = some b) : False := by
      subst hi
      rw [List.filterMap_cons_some hz] at h
      exact (List.nodup_cons.1 h).1 (List.mem_filterMap.2 ⟨z', List.mem_of_getElem? hn, hz'⟩)
    have htail : (is.filterMap f).Nodup := by
      cases hi : f i with
      | none => rwa [List.filterMap_cons_none hi] at h
      | some b' =>
        rw [List.filterMap_cons_some hi] at h
        exact (List.nodup_cons.1 h).2
    cases j with
    | zero =>
      cases k with
      | zero => rfl
      | succ k => exact (hhead (by simpa using hj) (by simpa using hk) hx hy).elim
    | succ j =>
      cases k with
      | zero => exact (hhead (by simpa using hk) (by simpa using hj) hy hx).elim
      | succ k =>
        rw [List.getElem?_cons_succ] at hj hk
        exact congrArg _ (ih htail hj hk)

end

end MiniJava

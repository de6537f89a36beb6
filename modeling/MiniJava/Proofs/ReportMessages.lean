import Mathlib.Data.List.Infix
import MiniJava.Proofs.Lowering.Numbers
import MiniJava.Report

namespace MiniJava

variable {cs label body : List Char}

theorem toList_repr (i : Int) :
    i.repr.toList = (if i < 0 then ['-'] else []) ++ Nat.toDigits 10 i.natAbs := by
  cases i with
  | ofNat n =>
    have hpos : ¬ (Int.ofNat n) < 0 := Int.not_lt.2 (Int.natCast_nonneg n)
    rw [if_neg hpos]
    exact Nat.toList_repr
  | negSucc n =>
    have hrepr : (Int.negSucc n).repr = "-" ++ (n + 1).repr := rfl
    rw [hrepr, String.toList_append, Nat.toList_repr, if_pos (Int.negSucc_lt_zero n)]
    rfl

/-- Coordinates are written in digits and signs. -/
theorem isDigit_or_sign_of_mem {i : Int} {c : Char} (h : c ∈ i.repr.toList) :
    c.isDigit ∨ c = '-' := by
  rw [toList_repr] at h
  rcases List.mem_append.1 h with h | h
  · split at h
    · exact .inr (List.mem_singleton.1 h)
    · exact absurd h List.not_mem_nil
  · exact .inl (Lower.isDigit_of_mem_digits h)

theorem colon_not_mem_repr (i : Int) : ':' ∉ i.repr.toList :=
  fun h ↦ (isDigit_or_sign_of_mem h).elim (by decide) (by decide)

theorem space_not_mem_repr (i : Int) : ' ' ∉ i.repr.toList :=
  fun h ↦ (isDigit_or_sign_of_mem h).elim (by decide) (by decide)

theorem sign_mem_repr_iff {i : Int} : '-' ∈ i.repr.toList ↔ i < 0 := by
  have hdigits : '-' ∉ Nat.toDigits 10 i.natAbs :=
    fun h ↦ absurd (Lower.isDigit_of_mem_digits h) (by decide)
  rw [toList_repr, List.mem_append, or_iff_left hdigits]
  split
  · next hneg => exact iff_of_true List.mem_cons_self hneg
  · next hpos => exact iff_of_false List.not_mem_nil hpos

theorem repr_injective {i j : Int} (h : i.repr = j.repr) : i = j := by
  have hsign : i < 0 ↔ j < 0 := by
    rw [← sign_mem_repr_iff, h, sign_mem_repr_iff]
  have hlist : i.repr.toList = j.repr.toList := congrArg String.toList h
  simp only [toList_repr, hsign] at hlist
  have habs : i.natAbs = j.natAbs := Lower.digits_injective (List.append_cancel_left hlist)
  omega

namespace Report

/-- A text is split at its first colon that a space follows. -/
theorem splitLabel_eq_some_iff :
    splitLabel cs = some (label, body) ↔
      cs = label ++ ':' :: ' ' :: body ∧ ¬ [':', ' '] <:+: label := by
  constructor
  · intro h
    fun_induction splitLabel cs generalizing label body with
    | case1 rest =>
      obtain ⟨rfl, rfl⟩ := Prod.mk.inj (Option.some.inj h)
      exact ⟨rfl, by simp⟩
    | case2 c rest hne ih =>
      obtain ⟨⟨label', body'⟩, hrest, heq⟩ := Option.map_eq_some_iff.1 h
      obtain ⟨rfl, rfl⟩ := Prod.mk.inj heq
      obtain ⟨rfl, hno⟩ := ih hrest
      refine ⟨rfl, fun hinfix ↦ ?_⟩
      rcases List.infix_cons_iff.1 hinfix with hprefix | hinfix
      · obtain ⟨rest', hrest'⟩ := hprefix
        obtain ⟨rfl, rfl⟩ := List.cons.inj hrest'
        exact hne _ rfl rfl
      · exact hno hinfix
    | case3 => exact absurd h nofun
  · rintro ⟨rfl, hno⟩
    induction label with
    | nil => rfl
    | cons c label ih =>
      have hrest := ih fun hinfix ↦ hno (List.infix_cons hinfix)
      rw [List.cons_append, splitLabel, hrest]
      · rfl
      · rintro rest rfl hspace
        cases label with
        | nil => exact absurd (List.cons.inj hspace).1 (by decide)
        | cons c' label =>
          obtain ⟨rfl, -⟩ := List.cons.inj hspace
          exact hno (List.prefix_append [':', ' '] label).isInfix

def coordinates (line col : Int) : List Char :=
  'a' :: 't' :: ' ' :: (line.repr.toList ++ ':' :: col.repr.toList)

theorem toList_located (line col : Int) (message : String) :
    s!"at {line}:{col}: {message}".toList =
      coordinates line col ++ ':' :: ' ' :: message.toList := by
  have htext : s!"at {line}:{col}: {message}" =
      "at " ++ line.repr ++ ":" ++ col.repr ++ ": " ++ message := rfl
  rw [htext]
  simp [coordinates]

/-- The only space is that of the first word, and what is before it is no colon. -/
theorem not_infix_coordinates (line col : Int) : ¬ [':', ' '] <:+: coordinates line col := by
  have hplace : ' ' ∉ line.repr.toList ++ ':' :: col.repr.toList := by
    simp [space_not_mem_repr]
  intro h
  simp only [coordinates, List.infix_cons_iff, List.cons_prefix_cons] at h
  obtain ⟨hne, -⟩ | ⟨hne, -⟩ | ⟨hne, -⟩ | h := h
  · exact absurd hne (by decide)
  · exact absurd hne (by decide)
  · exact absurd hne (by decide)
  · exact hplace (h.subset (by simp))

theorem splitLabel_located (line col : Int) (message : String) :
    splitLabel s!"at {line}:{col}: {message}".toList =
      some (coordinates line col, message.toList) :=
  splitLabel_eq_some_iff.2 ⟨toList_located line col message, not_infix_coordinates line col⟩

theorem stripPosition_located (line col : Int) (message : String) :
    stripPosition s!"at {line}:{col}: {message}" = message := by
  rw [stripPosition, splitLabel_located]
  exact String.ofList_toList

theorem coordinates_inj {line col line' col' : Int}
    (h : coordinates line col = coordinates line' col') : line = line' ∧ col = col' := by
  have hplace : line.repr.toList ++ ':' :: col.repr.toList =
      line'.repr.toList ++ ':' :: col'.repr.toList := by
    simpa only [coordinates, List.cons.injEq, true_and] using h
  obtain ⟨hline, -, hcol⟩ := (List.append_cons_inj_of_notMem (colon_not_mem_repr line')
    (colon_not_mem_repr col')).1 hplace.symm
  exact ⟨(repr_injective (String.toList_inj.1 hline)).symm,
    (repr_injective (String.toList_inj.1 hcol)).symm⟩

theorem located_inj {line₁ col₁ line₂ col₂ : Int} {message₁ message₂ : String}
    (h : s!"at {line₁}:{col₁}: {message₁}" = s!"at {line₂}:{col₂}: {message₂}") :
    line₁ = line₂ ∧ col₁ = col₂ ∧ message₁ = message₂ := by
  have hsplit := splitLabel_located line₁ col₁ message₁
  rw [h, splitLabel_located] at hsplit
  obtain ⟨hlabel, hbody⟩ := Prod.mk.inj (Option.some.inj hsplit)
  obtain ⟨rfl, rfl⟩ := coordinates_inj hlabel
  exact ⟨rfl, rfl, (String.toList_inj.1 hbody).symm⟩

/-- A text that does not begin like one with a position is left whole. -/
theorem stripPosition_eq_self {text : String} (h : text.toList.head? ≠ some 'a') :
    stripPosition text = text := by
  unfold stripPosition
  split
  · next label body hsplit =>
    obtain ⟨htext, -⟩ := splitLabel_eq_some_iff.1 hsplit
    exact absurd (by rw [htext]; rfl) h
  · rfl

theorem text_located (fault : Fault) (pos : Position) :
    (Finding.located fault pos).text =
      s!"at {pos.reportLine}:{pos.reportCol}: {fault.message}" := by
  have hplace : pos.text = pos.reportLine.repr ++ ":" ++ pos.reportCol.repr := rfl
  have htext : (Finding.located fault pos).text = "at " ++ pos.text ++ ": " ++ fault.message := rfl
  have hwhole : s!"at {pos.reportLine}:{pos.reportCol}: {fault.message}" =
      "at " ++ pos.reportLine.repr ++ ":" ++ pos.reportCol.repr ++ ": " ++ fault.message := rfl
  rw [htext, hplace, hwhole]
  simp only [String.append_assoc]

/-- A report holds the whole message of its finding. Of the text only a position in front is left
out, and the report has the coordinates that can be read there. -/
theorem message_kept :
    (∀ (fault : Fault) (pos : Position),
      let f : Finding := .located fault pos
      let r := ofFinding f
      r.message = fault.message ∧ r.line = pos.reportLine ∧ r.col = pos.reportCol ∧
        f.text = s!"at {r.line}:{r.col}: {r.message}" ∧
        ∀ (line col : Int) (message : String), f.text = s!"at {line}:{col}: {message}" →
          line = r.line ∧ col = r.col ∧ message = r.message) ∧
    ∀ f : Finding, (∀ fault pos, f ≠ .located fault pos) →
      let r := ofFinding f
      r.message = f.text ∧ r.line = -1 ∧ r.col = -1 := by
  constructor
  · intro fault pos f r
    have htext : f.text = s!"at {r.line}:{r.col}: {fault.message}" := text_located fault pos
    have hmessage : r.message = fault.message := by
      have hstrip : r.message = stripPosition f.text := rfl
      rw [hstrip, htext, stripPosition_located]
    refine ⟨hmessage, rfl, rfl, hmessage ▸ htext, fun line col message h ↦ ?_⟩
    rw [hmessage]
    exact located_inj (h.symm.trans htext)
  · intro f hf r
    cases f with
    | located fault pos => exact absurd rfl (hf fault pos)
    | missingSlot name method =>
      have htext : (Finding.missingSlot name method).text =
          "no local slot for '" ++ name ++ "' in method '" ++ method ++ "'" := rfl
      refine ⟨stripPosition_eq_self ?_, rfl, rfl⟩
      rw [htext]
      simp
    | underflow method =>
      have htext : (Finding.underflow method).text =
          "operand stack underflow in method '" ++ method ++ "'" := rfl
      refine ⟨stripPosition_eq_self ?_, rfl, rfl⟩
      rw [htext]
      simp

/-- Of an undeclared variable that is itself called like a report, in a line and a column that wrap
around, and of a variable without a slot. -/
theorem message_kept_wrapped :
    let pos : Position := ⟨4294967294, 2147483648, 1⟩
    let f : Finding := .located (.undeclaredVariable "at 3:4: x") pos
    let g : Finding := .missingSlot "at 3:4: x" "m: n"
    f.text = "at -2:-2147483648: undeclared variable 'at 3:4: x'" ∧
      -2 = (ofFinding f).line ∧ -2147483648 = (ofFinding f).col ∧
      "undeclared variable 'at 3:4: x'" = (ofFinding f).message ∧
      (∀ fault pos, g ≠ .located fault pos) ∧
      (ofFinding g).message = "no local slot for 'at 3:4: x' in method 'm: n'" := by
  intro pos f g
  have htext : f.text = "at -2:-2147483648: undeclared variable 'at 3:4: x'" := by decide +kernel
  have hg : ∀ fault pos, g ≠ .located fault pos := nofun
  obtain ⟨-, -, -, -, hread⟩ := message_kept.1 (.undeclaredVariable "at 3:4: x") pos
  obtain ⟨hline, hcol, hmessage⟩ := hread (-2) (-2147483648) "undeclared variable 'at 3:4: x'"
    (htext.trans (by decide +kernel))
  exact ⟨htext, hline, hcol, hmessage, hg, (message_kept.2 g hg).1⟩

end Report

end MiniJava

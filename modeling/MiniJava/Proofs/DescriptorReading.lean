import MiniJava.Jasmin.Descriptor

namespace MiniJava

open Tac

namespace Jasmin

namespace JType

/-- The type at the start of a text, and the text after it. The name of a class ends at the first
semicolon. -/
def read : List Char → Option (JType × List Char)
  | 'I' :: cs => some (.int, cs)
  | 'Z' :: cs => some (.boolean, cs)
  | 'V' :: cs => some (.void, cs)
  | '[' :: cs => (read cs).map fun (t, rest) ↦ (.array t, rest)
  | 'L' :: cs =>
    match cs.dropWhile (· ≠ ';') with
    | _ :: rest => some (.object (String.ofList (cs.takeWhile (· ≠ ';'))), rest)
    | [] => none
  | _ => none

def Delimited : JType → Prop
  | .object path => ';' ∉ path.toList
  | .array e => e.Delimited
  | .int | .boolean | .void => True

variable {t : JType} {cs rest : List Char}

theorem length_lt_of_read (h : read cs = some (t, rest)) : rest.length < cs.length := by
  fun_induction read cs generalizing t with
  | case1 cs | case2 cs | case3 cs =>
    obtain rfl := (Prod.mk.inj (Option.some.inj h)).2
    exact Nat.lt_succ_self _
  | case4 cs ih =>
    obtain ⟨⟨e, rest'⟩, he, heq⟩ := Option.map_eq_some_iff.1 h
    obtain rfl := (Prod.mk.inj heq).2
    exact Nat.lt_succ_of_lt (ih he)
  | case5 cs x rest' hdrop =>
    obtain rfl := (Prod.mk.inj (Option.some.inj h)).2
    have hlen := (List.dropWhile_suffix (l := cs) (· ≠ ';')).length_le
    rw [hdrop, List.length_cons] at hlen
    exact Nat.lt_succ_of_lt hlen
  | case6 | case7 => exact absurd h nofun

theorem read_object {path : String} (h : ';' ∉ path.toList) (rest : List Char) :
    read ('L' :: (path.toList ++ ';' :: rest)) = some (.object path, rest) := by
  have hname : ∀ c ∈ path.toList, decide (c ≠ ';') = true := by
    intro c hc
    exact decide_eq_true fun he ↦ h (he ▸ hc)
  have htake : (path.toList ++ ';' :: rest).takeWhile (· ≠ ';') = path.toList := by
    rw [List.takeWhile_append_of_pos hname, List.takeWhile_cons_of_neg (by simp), List.append_nil]
  have hdrop : (path.toList ++ ';' :: rest).dropWhile (· ≠ ';') = ';' :: rest := by
    rw [List.dropWhile_append_of_pos hname, List.dropWhile_cons_of_neg (by simp)]
  simp only [read, htake, hdrop, String.ofList_toList]

theorem read_text (h : t.Delimited) (rest : List Char) :
    read (t.text.toList ++ rest) = some (t, rest) := by
  induction t with
  | int | boolean | void => rfl
  | object path =>
    have htext : text (.object path) = "L" ++ path ++ ";" := rfl
    simp only [htext, String.toList_append, List.append_assoc]
    exact read_object h rest
  | array e ih =>
    have htext : (text (.array e)).toList = '[' :: e.text.toList := by simp [text]
    simp only [htext, List.cons_append, read, ih h, Option.map_some]

end JType

def readTypes : List Char → Option (List JType × List Char)
  | ')' :: rest => some ([], rest)
  | cs =>
    match h : JType.read cs with
    | some (t, rest) =>
      have : rest.length < cs.length := JType.length_lt_of_read h
      (readTypes rest).map fun (ts, left) ↦ (t :: ts, left)
    | none => none
termination_by cs => cs.length

theorem readTypes_of_read {cs rest : List Char} {t : JType} (h : JType.read cs = some (t, rest)) :
    readTypes cs = (readTypes rest).map fun (ts, left) ↦ (t :: ts, left) := by
  rw [readTypes.eq_def]
  split
  · exact absurd h nofun
  · split
    · next h' =>
      obtain ⟨rfl, rfl⟩ := Prod.mk.inj (Option.some.inj (h'.symm.trans h))
      rfl
    · next h' => exact absurd (h'.symm.trans h) nofun

theorem readTypes_text {ts : List JType} (h : ∀ t ∈ ts, t.Delimited) (rest : List Char) :
    readTypes ((String.join (ts.map JType.text)).toList ++ ')' :: rest) = some (ts, rest) := by
  induction ts with
  | nil => simp [readTypes]
  | cons t ts ih =>
    obtain ⟨ht, hts⟩ := List.forall_mem_cons.1 h
    have htext : (String.join ((t :: ts).map JType.text)).toList =
        t.text.toList ++ (String.join (ts.map JType.text)).toList := by
      simp
    rw [htext, List.append_assoc, readTypes_of_read (JType.read_text ht _), ih hts]
    rfl

namespace Descriptor

def read (text : String) : Option Descriptor :=
  match text.toList with
  | '(' :: cs => do
    let (params, cs) ← readTypes cs
    let (ret, cs) ← JType.read cs
    if cs = [] then some ⟨params, ret⟩ else none
  | _ => none

theorem read_text {d : Descriptor} (hp : ∀ t ∈ d.params, t.Delimited) (hr : d.ret.Delimited) :
    read d.text = some d := by
  have htext : d.text.toList = '(' :: ((String.join (d.params.map JType.text)).toList ++
      ')' :: (d.ret.text.toList ++ [])) := by simp [text]
  simp only [read, htext, readTypes_text hp, Option.bind_some, JType.read_text hr, bind]
  rfl

end Descriptor

end Jasmin

namespace Tac

open Jasmin

def ValType.classNames : ValType → List String
  | .cls name => [name]
  | .array e => e.classNames
  | .int | .bool | .void | .string => []

namespace Class

variable {c : Class} {params : List ValType} {ret : ValType}

/-- No path that an imported class is known by has a semicolon. -/
def PathsDelimited (c : Class) : Prop := ∀ i ∈ c.imports, ';' ∉ (i.qualified "/").toList

theorem PathsDelimited.classPath (hc : c.PathsDelimited) {name : String}
    (h : ';' ∉ name.toList) : ';' ∉ (c.classPath name).toList := by
  unfold Class.classPath qualify
  split
  · exact h
  · cases hi : c.imports.find? (·.name == name) with
    | none => exact h
    | some i => exact hc i (List.mem_of_find?_eq_some hi)

theorem PathsDelimited.jtype (hc : c.PathsDelimited) {t : ValType}
    (h : ∀ name ∈ t.classNames, ';' ∉ name.toList) : (c.jtype t).Delimited := by
  induction t with
  | int | bool | void => trivial
  | string => exact (by decide : ';' ∉ stringPath.toList)
  | array e ih => exact ih h
  | cls name => exact hc.classPath (h name (List.mem_singleton_self name))

theorem PathsDelimited.read_descriptor (hc : c.PathsDelimited)
    (h : ∀ t ∈ ret :: params, ∀ name ∈ t.classNames, ';' ∉ name.toList) :
    Descriptor.read (c.descriptor params ret).text = some ⟨params.map c.jtype, c.jtype ret⟩ := by
  obtain ⟨hret, hparams⟩ := List.forall_mem_cons.1 h
  exact Descriptor.read_text (List.forall_mem_map.2 fun t ht ↦ hc.jtype (hparams t ht))
    (hc.jtype hret)

/-- A descriptor gives back the types of the parameters and of the result, so signatures with the
same one have the same of each. -/
theorem descriptor_readable (hc : c.PathsDelimited)
    (h : ∀ t ∈ ret :: params, ∀ name ∈ t.classNames, ';' ∉ name.toList) :
    Descriptor.read (c.descriptor params ret).text = some ⟨params.map c.jtype, c.jtype ret⟩ ∧
      ∀ params' ret', (∀ t ∈ ret' :: params', ∀ name ∈ t.classNames, ';' ∉ name.toList) →
        (c.descriptor params ret).text = (c.descriptor params' ret').text →
          params.map c.jtype = params'.map c.jtype ∧ c.jtype ret = c.jtype ret' := by
  have hread := hc.read_descriptor h
  refine ⟨hread, fun params' ret' h' heq ↦ ?_⟩
  have hread' := hc.read_descriptor h'
  rw [← heq, hread] at hread'
  exact Descriptor.mk.inj (Option.some.inj hread')

/-- `List[][]`, a class with a name like the end of a descriptor, and `boolean`. -/
theorem descriptor_readable_nested :
    let c : Class := ⟨"A", none, [⟨["java", "util", "List"]⟩], [], []⟩
    let params : List ValType := [.array (.array (.cls "List")), .cls "I)V[Z", .bool]
    c.PathsDelimited ∧
      (c.descriptor params .string).text = "([[Ljava/util/List;LI)V[Z;Z)Ljava/lang/String;" ∧
      Descriptor.read (c.descriptor params .string).text =
        some ⟨[.array (.array (.object "java/util/List")), .object "I)V[Z", .boolean],
          .object stringPath⟩ := by
  intro c params
  have hc : c.PathsDelimited := List.forall_mem_singleton.2 (by decide +kernel)
  have hnames : ∀ t ∈ .string :: params, ∀ name ∈ t.classNames, ';' ∉ name.toList := by
    decide +kernel
  exact ⟨hc, by decide +kernel, (descriptor_readable hc hnames).1⟩

end Class

end Tac

end MiniJava

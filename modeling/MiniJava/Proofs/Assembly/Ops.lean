import MiniJava.Proofs.Assembly.Loads
import MiniJava.Proofs.Lowering.Numbers

namespace MiniJava.Jasmin

open Tac

variable {c : Tac.Class} {m : Tac.Method} {part part' : List (Line Opcode)} {n : Nat}

def Straight (part : List (Line Opcode)) : Prop := ∀ x ∈ part, ∃ o d, x = .op o d

namespace Straight

theorem nil : Straight [] := nofun

theorem cons (o : Opcode) (d : Int) (h : Straight part) : Straight (.op o d :: part) :=
  List.forall_mem_cons.2 ⟨⟨o, d, rfl⟩, h⟩

theorem append (h : Straight part) (h' : Straight part') : Straight (part ++ part') := by
  intro x hx
  rcases List.mem_append.1 hx with hx | hx
  · exact h x hx
  · exact h' x hx

theorem snoc (h : Straight part) (o : Opcode) (d : Int) : Straight (part ++ [.op o d]) :=
  h.append (.cons o d .nil)

theorem labels_eq_nil (h : Straight part) : part.filterMap Line.label? = [] := by
  rw [List.filterMap_eq_nil_iff]
  intro x hx
  obtain ⟨o, d, rfl⟩ := h x hx
  rfl

theorem load {x : Operand} (h : load m x = .ok part) : Straight part := by
  induction x generalizing part with
  | lit v t =>
    obtain rfl := Except.ok.inj h
    exact .cons _ _ .nil
  | var x t | param i x t =>
    obtain ⟨⟨k, i⟩, -, h⟩ := bind_eq_ok.1 h
    obtain rfl := Except.ok.inj h
    exact .cons _ _ .nil
  | elem array index t iha ihi =>
    obtain ⟨as, ha, h⟩ := bind_eq_ok.1 h
    obtain ⟨is, hi, h⟩ := bind_eq_ok.1 h
    obtain rfl := Except.ok.inj h
    exact ((iha ha).append (ihi hi)).snoc _ _
  | this cls =>
    obtain rfl := Except.ok.inj h
    exact .cons _ _ .nil
  | cls name => exact absurd h nofun

theorem loadAll {xs : List Operand} (h : loadAll m xs = .ok part) : Straight part := by
  induction xs generalizing part with
  | nil =>
    obtain rfl := Except.ok.inj h
    exact .nil
  | cons x xs ih =>
    obtain ⟨first, hf, h⟩ := bind_eq_ok.1 h
    obtain ⟨rest, hr, h⟩ := bind_eq_ok.1 h
    obtain rfl := Except.ok.inj h
    exact (load hf).append (ih hr)

theorem jumpLess {left right : Operand} {l : String} (h : jumpLess m left right l = .ok part) :
    Straight part := by
  unfold Jasmin.jumpLess at h
  split_ifs at h
  · obtain ⟨ls, hls, h⟩ := bind_eq_ok.1 h
    obtain rfl := Except.ok.inj h
    exact (load hls).snoc _ _
  · obtain ⟨rs, hrs, h⟩ := bind_eq_ok.1 h
    obtain rfl := Except.ok.inj h
    exact (load hrs).snoc _ _
  · obtain ⟨ls, hls, h⟩ := bind_eq_ok.1 h
    obtain ⟨rs, hrs, h⟩ := bind_eq_ok.1 h
    obtain rfl := Except.ok.inj h
    exact ((load hls).append (load hrs)).snoc _ _

theorem call {k : Call} (h : call c m k = .ok part) : Straight part := by
  obtain ⟨kind, ret⟩ := k
  cases kind with
  | static cls method args =>
    obtain ⟨values, hv, h⟩ := bind_eq_ok.1 h
    obtain rfl := Except.ok.inj h
    exact (loadAll hv).snoc _ _
  | virtual recv method args =>
    obtain ⟨cls, -, h⟩ := bind_eq_ok.1 h
    obtain ⟨receiver, hr, h⟩ := bind_eq_ok.1 h
    obtain ⟨values, hv, h⟩ := bind_eq_ok.1 h
    obtain rfl := Except.ok.inj h
    exact ((load hr).append (loadAll hv)).snoc _ _
  | special recv =>
    obtain ⟨path, -, h⟩ := bind_eq_ok.1 h
    obtain ⟨receiver, hr, h⟩ := bind_eq_ok.1 h
    obtain rfl := Except.ok.inj h
    exact (load hr).snoc _ _
  | new cls =>
    obtain rfl := Except.ok.inj h
    exact .cons _ _ .nil
  | newArray x | length x =>
    obtain ⟨values, hv, h⟩ := bind_eq_ok.1 h
    obtain rfl := Except.ok.inj h
    exact (load hv).snoc _ _

theorem loadPlace {array index : Operand} (h : loadPlace m array index = .ok part) :
    Straight part := by
  obtain ⟨as, ha, h⟩ := bind_eq_ok.1 h
  obtain ⟨is, hi, h⟩ := bind_eq_ok.1 h
  obtain rfl := Except.ok.inj h
  exact (load ha).append (load hi)

end Straight

theorem store_eq_ok {x : Operand} {line : Line Opcode} (h : store m x = .ok line) :
    ∃ k i, line = .op (.store k i) (-1) := by
  cases x with
  | var x t | param j x t =>
    obtain ⟨⟨k, i⟩, -, h⟩ := bind_eq_ok.1 h
    exact ⟨k, i, (Except.ok.inj h).symm⟩
  | lit | elem | this | cls => exact absurd h nofun

theorem trueLabel_eq (n : Nat) : trueLabel n = Lower.numbered "cmp_true_" n := rfl

theorem endLabel_eq (n : Nat) : endLabel n = Lower.numbered "cmp_end_" n := rfl

theorem nodup_compare (n : Nat) : [trueLabel n, endLabel n].Nodup := by
  have hne : trueLabel n ≠ endLabel n := by
    rw [trueLabel_eq, endLabel_eq, Ne, Lower.numbered_inj (by decide) (by decide)]
    exact fun h ↦ absurd h.1 (by decide)
  simpa using hne

theorem labels_rhs {r : Rhs} (h : rhs c m n r = .ok part) :
    part.filterMap Line.label? =
      if r.comparisons = 0 then [] else [trueLabel n, endLabel n] := by
  have hcompare {test : List (Line Opcode)} (ht : Straight test) :
      (test ++ pushBoolean n).filterMap Line.label? = [trueLabel n, endLabel n] := by
    rw [List.filterMap_append, ht.labels_eq_nil]
    rfl
  cases r with
  | value x => exact (Straight.load h).labels_eq_nil
  | arith op left right =>
    obtain ⟨ls, hl, h⟩ := bind_eq_ok.1 h
    obtain ⟨rs, hr, h⟩ := bind_eq_ok.1 h
    obtain rfl := Except.ok.inj h
    exact (((Straight.load hl).append (Straight.load hr)).snoc _ _).labels_eq_nil
  | less left right =>
    obtain ⟨test, ht, h⟩ := bind_eq_ok.1 h
    obtain rfl := Except.ok.inj h
    exact hcompare (Straight.jumpLess ht)
  | not x =>
    obtain ⟨v, hv, h⟩ := bind_eq_ok.1 h
    obtain rfl := Except.ok.inj h
    exact hcompare ((Straight.load hv).snoc _ _)
  | field name t =>
    obtain rfl := Except.ok.inj h
    rfl
  | call k => exact (Straight.call h).labels_eq_nil

theorem instr_elem {array index : Operand} {t t' : ValType} {r : Rhs}
    (h : (instr c m n (.assign (.elem array index t) t' r)).1 = .ok part) :
    ∃ place, loadPlace m array index = .ok place ∧
      instr c m n (.assign (.elem array index t) t' r) = (do
        let v ← rhs c m n r
        return place ++ v ++ [.op (.arrayStore (elementKind t)) (-3)], n + r.comparisons) := by
  simp only [instr] at h ⊢
  cases hp : loadPlace m array index with
  | error f => exact absurd (hp ▸ h) nofun
  | ok place => exact ⟨place, rfl, rfl⟩

theorem labels_instr {i : Instr} (h : (instr c m n i).1 = .ok part) :
    part.filterMap Line.label? = i.label?.toList ++
      if (instr c m n i).2 = n then [] else [trueLabel n, endLabel n] := by
  have hassign {pre post v : List (Line Opcode)} {r : Rhs} (hpre : Straight pre)
      (hpost : Straight post) (hr : rhs c m n r = .ok v) :
      (pre ++ v ++ post).filterMap Line.label? =
        if n + r.comparisons = n then [] else [trueLabel n, endLabel n] := by
    rw [List.filterMap_append, List.filterMap_append, hpre.labels_eq_nil, hpost.labels_eq_nil,
      labels_rhs hr]
    simp
  cases i with
  | assign dest t r =>
    cases dest with
    | elem array index t =>
      obtain ⟨place, hp, heq⟩ := instr_elem h
      rw [heq] at h ⊢
      obtain ⟨v, hv, h⟩ := bind_eq_ok.1 h
      obtain rfl := Except.ok.inj h
      exact hassign (.loadPlace hp) (.cons _ _ .nil) hv
    | lit | var | param | this | cls =>
      obtain ⟨v, hv, h⟩ := bind_eq_ok.1 h
      obtain ⟨line, hl, h⟩ := bind_eq_ok.1 h
      obtain rfl := Except.ok.inj h
      obtain ⟨k, i, rfl⟩ := store_eq_ok hl
      exact hassign .nil (.cons _ _ .nil) hv
  | putField name t x =>
    obtain ⟨v, hv, h⟩ := bind_eq_ok.1 h
    obtain rfl := Except.ok.inj h
    have hstraight := ((Straight.load hv).cons (.load .ref 0) 1).snoc
      (.putfield c.name name (c.jtype t)) (-2)
    exact hstraight.labels_eq_nil.trans (by simp [instr, Instr.label?])
  | call k =>
    obtain ⟨v, hv, h⟩ := bind_eq_ok.1 h
    obtain rfl := Except.ok.inj h
    have hpop : Straight (if k.ret = .void then [] else [.op .pop (-1)]) := by
      split_ifs
      · exact .nil
      · exact .cons _ _ .nil
    simpa [instr, Instr.label?] using ((Straight.call hv).append hpop).labels_eq_nil
  | branch cond l =>
    cases cond with
    | value x =>
      obtain ⟨v, hv, h⟩ := bind_eq_ok.1 h
      obtain rfl := Except.ok.inj h
      simpa [instr, Instr.label?] using ((Straight.load hv).snoc _ _).labels_eq_nil
    | less left right => simpa [instr, Instr.label?] using (Straight.jumpLess h).labels_eq_nil
  | goto l =>
    obtain rfl := Except.ok.inj h
    simp [instr, Instr.label?, Line.label?]
  | label l =>
    obtain rfl := Except.ok.inj h
    simp [instr, Instr.label?, Line.label?]
  | «return» t x =>
    have hline : Straight [returnLine t] := by
      unfold returnLine
      split_ifs
      · exact .cons _ _ .nil
      · exact .cons _ _ .nil
    cases x with
    | none =>
      obtain rfl := Except.ok.inj h
      simpa [instr, Instr.label?] using hline.labels_eq_nil
    | some x =>
      obtain ⟨v, hv, h⟩ := bind_eq_ok.1 h
      obtain rfl := Except.ok.inj h
      simpa [instr, Instr.label?] using ((Straight.load hv).append hline).labels_eq_nil
  | invalid what =>
    obtain rfl := Except.ok.inj h
    simp [instr, Instr.label?, Line.label?]

end MiniJava.Jasmin

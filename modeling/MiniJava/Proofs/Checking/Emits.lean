import MiniJava.Check.Stmt
import MiniJava.Proofs.Assembly.Neutral
import MiniJava.Proofs.Checking.Calls
import MiniJava.Proofs.Lowering.MethodMeaning

namespace MiniJava

open Tac Lower

namespace Tac.Instr

variable {c : Tac.Class}

theorem Sound.callless {i : Instr} (h : i.call? = none)
    (hr : ∀ x, i ≠ .return .void (some x)) : i.Sound c := by
  refine ⟨fun k hk ↦ absurd (h ▸ hk) nofun, ?_, hr⟩
  rintro k rfl
  exact absurd h nofun

theorem Sound.assign {dest : Operand} {t : ValType} {k : Call} (h : k.Binds c) :
    (Instr.assign dest t (.call k)).Sound c :=
  ⟨fun _ hk ↦ Option.some.inj hk ▸ h, nofun, nofun⟩

theorem Sound.call {k : Call} (hb : k.Binds c) (hs : k.Shaped) : (Instr.call k).Sound c :=
  ⟨fun _ hk ↦ Option.some.inj hk ▸ hb, fun _ hk ↦ Instr.call.inj hk ▸ hs, nofun⟩

theorem Simple.sound {i : Instr} (h : i.Simple) : i.Sound c := by
  cases i with
  | putField => exact Sound.callless rfl nofun
  | assign dest t r =>
    cases r with
    | value | arith | less | not | field => exact Sound.callless rfl nofun
    | call k =>
      obtain ⟨kind, ret⟩ := k
      cases kind with
      | static | virtual => exact h.elim
      | special | new | newArray | length => exact Sound.assign trivial
  | call k =>
    obtain ⟨kind, ret⟩ := k
    cases kind with
    | special x =>
      cases ret with
      | void => exact Sound.call trivial rfl
      | int | bool | string | array | cls => exact h.elim
    | static | virtual | new | newArray | length => exact h.elim
  | branch | goto | label | «return» | invalid => exact h.elim

end Tac.Instr

def Lower.Emits (c : Tac.Class) {α : Type} (x : Lower α) : Prop := ∀ n, ∀ i ∈ (x n).code, i.Sound c

theorem Lower.emits (c : Tac.Class) : Closed (Instr.Sound c) (@Emits c) where
  simple _ := Instr.Simple.sound
  emit i hi n := List.forall_mem_singleton.2 hi
  pure a n := nofun
  bind_value hx hf n := by
    rw [bind_apply]
    exact List.forall_mem_append.2 ⟨hx n, hf n _⟩
  name taken stem n := nofun
  unsupported what pos n := List.forall_mem_singleton.2 (Instr.Sound.callless rfl nofun)
  and s left right hl hr n := by
    rw [s.lowerAnd_apply]
    simp only [List.forall_mem_append, List.forall_mem_cons]
    exact ⟨hl n, .callless rfl nofun, .callless rfl nofun, .callless rfl nofun,
      .callless rfl nofun, hr _, .callless rfl nofun, .callless rfl nofun, nofun⟩
  ite s cond body other hc hb ho n := by
    rw [s.lowerIf_apply]
    simp only [List.forall_mem_append, List.forall_mem_cons]
    exact ⟨hc _, .callless rfl nofun, .callless rfl nofun, .callless rfl nofun, hb _,
      .callless rfl nofun, .callless rfl nofun, ho _, .callless rfl nofun, nofun⟩
  loop s cond body hc hb n := by
    rw [s.lowerWhile_apply]
    simp only [List.forall_mem_append, List.forall_mem_cons]
    exact ⟨hc _, .callless rfl nofun, .callless rfl nofun, .callless rfl nofun, hb _, hc _,
      .callless rfl nofun, .callless rfl nofun, nofun⟩

namespace Scope

variable {s : Scope} {c : Tac.Class}

theorem shaped_lowerCall (recv : Expr) (method : Ident) (args : List Expr)
    (hint : Option ValType) (n : Numbering) :
    (s.lowerCall recv method args hint n).value.Shaped := by
  unfold lowerCall lowerCallWith
  cases s.className? recv with
  | some cls => trivial
  | none => trivial

section

variable (hd : s.symbols.Describes c) (hname : s.symbols.className ≠ Jasmin.stringPath)

include hd hname

theorem everywhere_allows {e : Expr} (h : s.check e = []) (hr : e.Everywhere s.Resolved) :
    e.Everywhere (s.Allows (Instr.Sound c)) := by
  induction e using Expr.children_induction with
  | step e ih =>
    refine .intro e ?_ fun x hx ↦ ih x hx (check_child h hx) (hr.inside x hx)
    cases e with
    | call recv method args pos =>
      intro hint n
      simp only [check, List.append_eq_nil_iff] at h
      have hbinds := binds_lowerCall (n := n) hd hname h.2 hr.here hint
      exact ⟨.call hbinds (shaped_lowerCall ..), fun _ ↦ .assign hbinds⟩
    | int | bool | ident | this | binary | not | paren | index | length | newObject | newArray
    | array => trivial

theorem emits_lower {e : Expr} (h : s.check e = []) (hr : e.Everywhere s.Resolved)
    (hint : Option ValType) : Emits c (s.lower e hint) :=
  (emits c).lower s (everywhere_allows hd hname h hr) hint

theorem emits_lowerCond {cond : Expr} (h : s.checkCondition cond = [])
    (hr : cond.Everywhere s.Resolved) : Emits c (s.lowerCond cond) :=
  (emits c).lowerCond s (everywhere_allows hd hname (List.append_eq_nil_iff.1 h).1 hr)

theorem emits_lowerReturn {m : Signature} (hm : s.method = some m) {value : Option Expr}
    {pos : Position} (h : s.checkReturn value pos = [])
    (hr : ∀ e, value = some e → e.Everywhere s.Resolved) : Emits c (s.lowerReturn value) := by
  cases value with
  | none =>
    have hsound {t : ValType} : (Instr.return t none).Sound c := .callless rfl nofun
    exact (emits c).emit _ hsound
  | some e =>
    simp only [checkReturn, hm, List.append_eq_nil_iff] at h
    have hret : m.ret ≠ .void := by
      intro hvoid
      simp [hvoid] at h
    refine (emits c).bind (emits_lower hd hname h.1 (hr e rfl) _) fun v ↦
      (emits c).emit _ (.callless rfl fun x hx ↦ hret ?_)
    have hty : s.method.elim ValType.void (fun m ↦ .ofTy m.ret) = .void := (Instr.return.inj hx).1
    rw [hm] at hty
    exact (ValType.ofTy_eq_void_iff _).1 hty

end

mutual

theorem emits_lowerStmt (hd : s.symbols.Describes c)
    (hname : s.symbols.className ≠ Jasmin.stringPath) {m : Signature} (hm : s.method = some m) :
    ∀ stmt : Stmt, s.checkStmt stmt = [] → (∀ e ∈ stmt.exprs, e.Everywhere s.Resolved) →
      Emits c (s.lowerStmt stmt)
  | .var _, _, _ => (emits c).pure _
  | .block body _, h, hr => emits_lowerStmts hd hname hm body h hr
  | .ifThen cond body _, h, hr => by
    obtain ⟨hcond, hbody⟩ := List.append_eq_nil_iff.1 h
    obtain ⟨hr, hrs⟩ := List.forall_mem_cons.1 hr
    exact (emits c).ite s _ (emits_lowerCond hd hname hcond hr)
      (emits_lowerStmt hd hname hm body hbody hrs) ((emits c).pure _)
  | .ifElse cond body other _, h, hr => by
    obtain ⟨h, hother⟩ := List.append_eq_nil_iff.1 h
    obtain ⟨hcond, hbody⟩ := List.append_eq_nil_iff.1 h
    obtain ⟨hr, hrs⟩ := List.forall_mem_cons.1 hr
    obtain ⟨hrb, hro⟩ := List.forall_mem_append.1 hrs
    exact (emits c).ite s _ (emits_lowerCond hd hname hcond hr)
      (emits_lowerStmt hd hname hm body hbody hrb) (emits_lowerStmt hd hname hm other hother hro)
  | .while cond body _, h, hr => by
    obtain ⟨hcond, hbody⟩ := List.append_eq_nil_iff.1 h
    obtain ⟨hr, hrs⟩ := List.forall_mem_cons.1 hr
    exact (emits c).loop s _ (emits_lowerCond hd hname hcond hr)
      (emits_lowerStmt hd hname hm body hbody hrs)
  | .expr e _, h, hr => by
    have he := everywhere_allows hd hname h (List.forall_mem_singleton.1 hr)
    exact (emits c).lowerEffect s he
  | .assign target index value pos, h, hr => by
    obtain ⟨h, -⟩ := List.append_eq_nil_iff.1 h
    obtain ⟨hvalue, hindex⟩ := List.append_eq_nil_iff.1 h
    obtain ⟨hri, hrv⟩ := List.forall_mem_append.1 hr
    refine (emits c).lowerAssign s ?_
      (everywhere_allows hd hname hvalue (List.forall_mem_singleton.1 hrv)) target
    rintro i rfl
    obtain ⟨hi, -⟩ := List.append_eq_nil_iff.1 hindex
    exact everywhere_allows hd hname hi (hri i (by simp))
  | .return value pos, h, hr => by
    refine emits_lowerReturn hd hname hm h ?_
    rintro e rfl
    exact hr e (by simp [Stmt.exprs])

theorem emits_lowerStmts (hd : s.symbols.Describes c)
    (hname : s.symbols.className ≠ Jasmin.stringPath) {m : Signature} (hm : s.method = some m) :
    ∀ stmts : List Stmt, s.checkStmts stmts = [] →
      (∀ e ∈ Stmt.exprsAll stmts, e.Everywhere s.Resolved) → Emits c (s.lowerStmts stmts)
  | [], _, _ => (emits c).pure _
  | stmt :: rest, h, hr => by
    obtain ⟨hfirst, hrest⟩ := List.append_eq_nil_iff.1 h
    obtain ⟨hr, hrs⟩ := List.forall_mem_append.1 hr
    exact (emits c).bind (emits_lowerStmt hd hname hm stmt hfirst hr) fun _ ↦
      emits_lowerStmts hd hname hm rest hrest hrs

end

end Scope

end MiniJava

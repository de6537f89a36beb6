import MiniJava.Proofs.FailureReports
import MiniJava.Proofs.Lowering.ThreeAddress
import MiniJava.Proofs.ReturnSafety

namespace MiniJava

open Tac Lower

def Tac.argLimit (code : List Instr) : Nat :=
  ((code.filterMap Instr.call?).map fun k ↦ k.kind.args.length).max?.getD 0

theorem Tac.length_args_le_argLimit {code : List Instr} {i : Instr} (hi : i ∈ code) {k : Call}
    (hk : i.call? = some k) : k.kind.args.length ≤ argLimit code :=
  List.le_max?_getD_of_mem (List.mem_map_of_mem (List.mem_filterMap.2 ⟨i, hi, hk⟩))

structure Tac.Instr.Settling (i : Instr) : Prop where
  threeAddress : i.ThreeAddress
  shaped : ∀ k, i = .call k → k.Shaped
  returns : ∀ x, i ≠ .return .void (some x)

namespace Jasmin

variable {c : Tac.Class} {m : Tac.Method} {n b d e f : Nat} {part part' : List (Line Opcode)}
  {os : List Outcome}

def Climbs (b d : Nat) (part : List (Line Opcode)) (e : Nat) : Prop :=
  ∀ dp : Depth, dp.depth = d → ∃ dp', dp.applyAll part = (dp', true) ∧ dp'.depth = e ∧
    dp'.max ≤ max dp.max b

namespace Climbs

theorem nil : Climbs b d [] d := fun dp hd ↦ ⟨dp, rfl, hd, Int.le_max_left _ _⟩

theorem append (h : Climbs b d part e) (h' : Climbs b e part' f) :
    Climbs b d (part ++ part') f := by
  intro dp hd
  obtain ⟨dp₁, happly₁, hd₁, hmax₁⟩ := h dp hd
  obtain ⟨dp₂, happly₂, hd₂, hmax₂⟩ := h' dp₁ hd₁
  refine ⟨dp₂, ?_, hd₂, by omega⟩
  rw [Depth.applyAll_append happly₁, happly₂]

theorem line {x : Line Opcode} (hx : (e : Int) = d + x.delta) (he : e ≤ b) :
    Climbs b d [x] e := by
  intro dp hd
  have hdepth : dp.depth + x.delta = e := by rw [hd, hx]
  have hstep : dp.step? x = some ⟨e, max dp.max e⟩ := by
    rw [Depth.step?_eq_some, hdepth]
    exact ⟨Int.natCast_nonneg e, rfl⟩
  refine ⟨⟨e, max dp.max e⟩, ?_, rfl, ?_⟩
  · simp only [Depth.applyAll, hstep]
  · simp only
    omega

theorem op {o : Opcode} {δ : Int} (he : (e : Int) = d + δ) (hb : e ≤ b) :
    Climbs b d [.op o δ] e := line he hb

end Climbs

theorem climbs_load {x : Operand} (hx : x.IsAtom) (hb : d + 1 ≤ b) (h : load m x = .ok part) :
    Climbs b d part (d + 1) := by
  cases x with
  | elem => exact hx.elim
  | var x t | param j x t =>
    obtain ⟨⟨k, i⟩, -, h⟩ := bind_eq_ok.1 h
    obtain rfl := Except.ok.inj h
    exact .op rfl hb
  | lit v t | this cls =>
    obtain rfl := Except.ok.inj h
    exact .op rfl hb
  | cls name => exact absurd h nofun

theorem climbs_loadPlace {array index : Operand} (ha : array.IsAtom) (hi : index.IsAtom)
    (hb : d + 2 ≤ b) (h : loadPlace m array index = .ok part) : Climbs b d part (d + 2) := by
  obtain ⟨as, has, h⟩ := bind_eq_ok.1 h
  obtain ⟨is, his, h⟩ := bind_eq_ok.1 h
  obtain rfl := Except.ok.inj h
  exact (climbs_load ha (by omega) has).append (climbs_load hi hb his)

theorem climbs_loadAll {xs : List Operand} (hx : ∀ x ∈ xs, x.IsAtom) (hb : d + xs.length ≤ b)
    (h : loadAll m xs = .ok part) : Climbs b d part (d + xs.length) := by
  induction xs generalizing part d with
  | nil =>
    obtain rfl := Except.ok.inj h
    exact .nil
  | cons x xs ih =>
    obtain ⟨first, hf, h⟩ := bind_eq_ok.1 h
    obtain ⟨rest, hr, h⟩ := bind_eq_ok.1 h
    obtain rfl := Except.ok.inj h
    obtain ⟨hatom, hatoms⟩ := List.forall_mem_cons.1 hx
    rw [List.length_cons] at hb ⊢
    have hlen : d + (xs.length + 1) = d + 1 + xs.length := by omega
    rw [hlen] at hb ⊢
    exact (climbs_load hatom (by omega) hf).append (ih hatoms hb hr)

theorem climbs_jumpLess {left right : Operand} {l : String} (hl : left.IsAtom)
    (hr : right.IsAtom) (hb : d + 2 ≤ b) (h : jumpLess m left right l = .ok part) :
    Climbs b d part d := by
  unfold jumpLess at h
  split_ifs at h
  · obtain ⟨ls, hls, h⟩ := bind_eq_ok.1 h
    obtain rfl := Except.ok.inj h
    exact (climbs_load hl (by omega) hls).append (.op (by omega) (by omega))
  · obtain ⟨rs, hrs, h⟩ := bind_eq_ok.1 h
    obtain rfl := Except.ok.inj h
    exact (climbs_load hr (by omega) hrs).append (.op (by omega) (by omega))
  · obtain ⟨ls, hls, h⟩ := bind_eq_ok.1 h
    obtain ⟨rs, hrs, h⟩ := bind_eq_ok.1 h
    obtain rfl := Except.ok.inj h
    exact ((climbs_load hl (by omega) hls).append (climbs_load hr hb hrs)).append
      (.op (by omega) (by omega))

theorem climbs_pushBoolean (hb : d + 1 ≤ b) : Climbs b d (pushBoolean n) (d + 1) := by
  have hzero : Climbs b d [.op (.iconst 0) 1] (d + 1) := .op rfl hb
  have hstay {x : Line Opcode} (hx : x.delta = 0) : Climbs b (d + 1) [x] (d + 1) :=
    .line (by omega) hb
  exact hzero.append ((hstay rfl).append ((hstay rfl).append ((hstay rfl).append (hstay rfl))))

theorem climbs_invoke {o : Opcode} {ret : ValType} {p : Nat} {δ : Int}
    (hδ : δ = (if ret = .void then 0 else 1) - p) (hb : d + 1 ≤ b) :
    Climbs b (d + p) [.op o δ] (d + if ret = .void then 0 else 1) := by
  refine .op ?_ ?_
  · rw [hδ]
    split_ifs <;> omega
  · split_ifs <;> omega

/-- A call holds its receiver and its arguments at once. -/
theorem climbs_call {k : Call} (hx : ∀ x ∈ k.kind.operands, x.IsAtom) (hn : k.Countable)
    (hb : d + 1 + k.kind.args.length ≤ b) (h : call c m k = .ok part) :
    Climbs b d part (d + k.results) := by
  obtain ⟨kind, ret⟩ := k
  have hresult : d + 1 ≤ b := Nat.le_trans (Nat.le_add_right _ _) hb
  cases kind with
  | static cls method args =>
    obtain ⟨values, hv, h⟩ := bind_eq_ok.1 h
    obtain rfl := Except.ok.inj h
    have hargs : d + 1 + args.length ≤ b := hb
    have hloads : Climbs b d values (d + args.length) := climbs_loadAll hx (by omega) hv
    exact hloads.append (climbs_invoke (callDelta_eq hn) hresult)
  | virtual recv method args =>
    obtain ⟨cls, -, h⟩ := bind_eq_ok.1 h
    obtain ⟨receiver, hr, h⟩ := bind_eq_ok.1 h
    obtain ⟨values, hv, h⟩ := bind_eq_ok.1 h
    obtain rfl := Except.ok.inj h
    obtain ⟨hrecv, hx⟩ := List.forall_mem_cons.1 hx
    have hloads : Climbs b d (receiver ++ values) (d + 1 + args.length) :=
      (climbs_load hrecv hresult hr).append (climbs_loadAll hx hb hv)
    have hdelta : callDelta args ret = (if ret = .void then 0 else 1) - args.length :=
      callDelta_eq hn
    rw [Nat.add_assoc] at hloads
    refine hloads.append (climbs_invoke ?_ hresult)
    dsimp only
    omega
  | special recv =>
    obtain ⟨path, -, h⟩ := bind_eq_ok.1 h
    obtain ⟨receiver, hr, h⟩ := bind_eq_ok.1 h
    obtain rfl := Except.ok.inj h
    have hpop : Climbs b (d + 1) [.op (.invoke .special path "<init>" ⟨[], .void⟩) (-1)] d :=
      .op (by omega) (Nat.le_of_succ_le hresult)
    exact (climbs_load (hx recv List.mem_cons_self) hresult hr).append hpop
  | new cls =>
    obtain rfl := Except.ok.inj h
    exact .op rfl hb
  | newArray x | length x =>
    obtain ⟨values, hv, h⟩ := bind_eq_ok.1 h
    obtain rfl := Except.ok.inj h
    exact (climbs_load (hx x List.mem_cons_self) hb hv).append (.op (Int.add_zero _).symm hb)

theorem climbs_rhs {r : Rhs} (hx : ∀ x ∈ r.operands, x.IsAtom)
    (hk : ∀ k, r = .call k → k.Countable ∧ d + 1 + k.kind.args.length ≤ b) (hb : d + 2 ≤ b)
    (h : rhs c m n r = .ok part) : Climbs b d part (d + r.results) := by
  cases r with
  | value x => exact climbs_load (hx x List.mem_cons_self) (by omega) h
  | arith op left right =>
    obtain ⟨ls, hl, h⟩ := bind_eq_ok.1 h
    obtain ⟨rs, hr, h⟩ := bind_eq_ok.1 h
    obtain rfl := Except.ok.inj h
    obtain ⟨hleft, hright⟩ := forall_mem_two.1 hx
    have hloads := (climbs_load hleft (by omega) hl).append (climbs_load hright hb hr)
    exact hloads.append (.op (e := d + 1) (by omega) (by omega))
  | less left right =>
    obtain ⟨test, ht, h⟩ := bind_eq_ok.1 h
    obtain rfl := Except.ok.inj h
    obtain ⟨hleft, hright⟩ := forall_mem_two.1 hx
    exact (climbs_jumpLess hleft hright hb ht).append (climbs_pushBoolean (by omega))
  | not x =>
    obtain ⟨v, hv, h⟩ := bind_eq_ok.1 h
    obtain rfl := Except.ok.inj h
    have htest : Climbs b (d + 1) [.op (.jump .ifeq (trueLabel n)) (-1)] d :=
      .op (by omega) (by omega)
    have hload : Climbs b d v (d + 1) := climbs_load (hx x List.mem_cons_self) (by omega) hv
    exact (hload.append htest).append (climbs_pushBoolean (by omega))
  | field name t =>
    obtain rfl := Except.ok.inj h
    have hthis : Climbs b d [loadThis] (d + 1) := .op rfl (by omega)
    have hfield : d + 1 ≤ b := by omega
    exact hthis.append (.op (Int.add_zero _).symm hfield)
  | call k =>
    obtain ⟨hn, hargs⟩ := hk k rfl
    exact climbs_call hx hn hargs h

/-- Begun with nothing on the stack, the lines leave nothing there and never hold more than `b`. A
line that takes too much is where they end. -/
def Settles (b : Nat) (part : List (Line Opcode)) : Prop :=
  ∀ dp : Depth, dp.depth = 0 →
    (dp.applyAll part).1.depth = 0 ∧ (dp.applyAll part).1.max ≤ max dp.max b

theorem Climbs.settles (h : Climbs b 0 part 0) : Settles b part := by
  intro dp hd
  obtain ⟨dp', happly, hd', hmax⟩ := h dp hd
  rw [happly]
  exact ⟨hd', hmax⟩

/-- A line that takes what is not there changes nothing. -/
theorem Climbs.settles_overdrawn (h : Climbs b 0 part 0) {x : Line Opcode} (hx : x.delta < 0) :
    Settles b (part ++ [x]) := by
  intro dp hd
  obtain ⟨dp', happly, hd', hmax⟩ := h dp hd
  have hstep : dp'.step? x = none := by
    rw [Depth.step?_eq_none, hd']
    omega
  rw [Depth.applyAll_append happly, Depth.applyAll, hstep]
  exact ⟨hd', hmax⟩

theorem settles_linesOf {o : Outcome} (h : ∀ part, o = .ok part → Settles b part) :
    Settles b (linesOf o) := by
  cases o with
  | ok part => exact h part rfl
  | error f => exact Climbs.settles (.line rfl (Nat.zero_le b))

theorem settles_assign {dest : Operand} {t : ValType} {r : Rhs} (hdest : dest.IsAtom)
    (hr : ∀ v, rhs c m n r = .ok v → Climbs b 0 v r.results)
    (h : (instr c m n (.assign dest t r)).1 = .ok part) : Settles b part := by
  cases dest with
  | elem => exact hdest.elim
  | lit | var | param | this | cls =>
    obtain ⟨v, hv, h⟩ := bind_eq_ok.1 h
    obtain ⟨line, hl, h⟩ := bind_eq_ok.1 h
    obtain rfl := Except.ok.inj h
    obtain ⟨k, j, rfl⟩ := store_eq_ok hl
    have hclimbs := hr v hv
    -- A call without a result leaves nothing to be stored.
    obtain hzero | hone : r.results = 0 ∨ r.results = 1 := by
      have hle := r.results_le_one
      omega
    · rw [hzero] at hclimbs
      exact hclimbs.settles_overdrawn (Int.negSucc_lt_zero 0)
    · rw [hone] at hclimbs
      exact (hclimbs.append (.op rfl (Nat.zero_le b))).settles

theorem settles_store {array index x : Operand} {t ty : ValType} (ha : array.IsAtom)
    (hi : index.IsAtom) (hx : x.IsAtom) (hb : 3 ≤ b)
    (h : (instr c m n (.assign (.elem array index t) ty (.value x))).1 = .ok part) :
    Settles b part := by
  obtain ⟨place, hp, heq⟩ := instr_elem h
  rw [heq] at h
  obtain ⟨v, hv, h⟩ := bind_eq_ok.1 h
  obtain rfl := Except.ok.inj h
  have hloads := (climbs_loadPlace (d := 0) ha hi (by omega) hp).append (climbs_load hx hb hv)
  exact (hloads.append (.op rfl (Nat.zero_le b))).settles

theorem climbs_fetch {array index : Operand} {t : ValType} (ha : array.IsAtom)
    (hi : index.IsAtom) (hb : d + 2 ≤ b) (h : load m (.elem array index t) = .ok part) :
    Climbs b d part (d + 1) := by
  obtain ⟨as, has, h⟩ := bind_eq_ok.1 h
  obtain ⟨is, his, h⟩ := bind_eq_ok.1 h
  obtain rfl := Except.ok.inj h
  have hloads := (climbs_load ha (by omega) has).append (climbs_load hi hb his)
  exact hloads.append (.op (by omega) (by omega))

theorem settles_instr {i : Instr} (hi : i.Settling)
    (hk : ∀ k ∈ i.call?, k.Countable ∧ 1 + k.kind.args.length ≤ b) (hb : 3 ≤ b)
    (h : (instr c m n i).1 = .ok part) : Settles b part := by
  cases hi.threeAddress with
  | store t ty ha hj hx => exact settles_store ha hj hx hb h
  | fetch t ty hdest ha hj =>
    refine settles_assign hdest (fun v hv ↦ ?_) h
    exact climbs_fetch (d := 0) ha hj (by omega) hv
  | atoms hx =>
    cases i with
    | assign dest t r =>
      obtain ⟨hdest, hx⟩ := List.forall_mem_cons.1 hx
      refine settles_assign hdest (fun v hv ↦ ?_) h
      have hclimbs := climbs_rhs (b := b) (d := 0) hx ?_ (by omega) hv
      · rwa [Nat.zero_add] at hclimbs
      · rintro k rfl
        exact hk k rfl
    | putField name t x =>
      obtain ⟨v, hv, h⟩ := bind_eq_ok.1 h
      obtain rfl := Except.ok.inj h
      have hthis : Climbs b 0 [loadThis] 1 := .op rfl (by omega)
      have hload : Climbs b 1 v 2 :=
        climbs_load (List.forall_mem_singleton.1 hx) (by omega) hv
      exact ((hthis.append hload).append (.op rfl (Nat.zero_le b))).settles
    | call k =>
      obtain ⟨v, hv, h⟩ := bind_eq_ok.1 h
      obtain rfl := Except.ok.inj h
      obtain ⟨hn, hargs⟩ := hk k rfl
      have hclimbs := climbs_call (b := b) (d := 0) hx hn hargs hv
      refine Climbs.settles (hclimbs.append ?_)
      rw [Call.results_eq (hi.shaped k rfl)]
      split_ifs
      · exact .nil
      · exact .op rfl (Nat.zero_le b)
    | branch cond l =>
      cases cond with
      | value x =>
        obtain ⟨v, hv, h⟩ := bind_eq_ok.1 h
        obtain rfl := Except.ok.inj h
        have hload : Climbs b 0 v 1 :=
          climbs_load (List.forall_mem_singleton.1 hx) (by omega) hv
        exact (hload.append (.op rfl (Nat.zero_le b))).settles
      | less left right =>
        obtain ⟨hleft, hright⟩ := forall_mem_two.1 hx
        exact (climbs_jumpLess (d := 0) hleft hright (by omega) h).settles
    | goto | label | invalid =>
      obtain rfl := Except.ok.inj h
      exact Climbs.settles (.line rfl (Nat.zero_le b))
    | «return» t x =>
      cases x with
      | none =>
        obtain rfl := Except.ok.inj h
        by_cases ht : t = .void
        · rw [returnLine, if_pos ht]
          exact Climbs.settles (.op rfl (Nat.zero_le b))
        · rw [returnLine, if_neg ht]
          exact Climbs.nil.settles_overdrawn (Int.negSucc_lt_zero 0)
      | some x =>
        have ht : t ≠ .void := by
          rintro rfl
          exact hi.returns x rfl
        obtain ⟨v, hv, h⟩ := bind_eq_ok.1 h
        obtain rfl := Except.ok.inj h
        have hload : Climbs b 0 v 1 :=
          climbs_load (List.forall_mem_singleton.1 hx) (by omega) hv
        rw [returnLine, if_neg ht]
        exact (hload.append (.op rfl (Nat.zero_le b))).settles

theorem max_track_le {method : String} {dp : Depth} {found : Bool} (hd : dp.depth = 0)
    (h : ∀ o ∈ os, Settles b (linesOf o)) :
    (track method dp found os).1.max ≤ max dp.max b := by
  induction os generalizing dp found with
  | nil => exact Int.le_max_left _ _
  | cons o os ih =>
    obtain ⟨ho, hos⟩ := List.forall_mem_cons.1 h
    obtain ⟨hzero, hmax⟩ := ho dp hd
    rw [track_cons]
    exact Int.le_trans (ih hzero hos) (Int.max_le.2 ⟨hmax, Int.le_max_right _ _⟩)

/-- Three values are what storing in an array takes. -/
theorem maxDepth_body_le (hi : ∀ i ∈ m.code, i.Settling)
    (hk : ∀ i ∈ m.code, ∀ k ∈ i.call?, k.Countable) :
    (body c n m).maxDepth ≤ max 3 (1 + argLimit m.code) := by
  have hos : ∀ o ∈ (outcomes c m n m.code).1,
      Settles (max 3 (1 + argLimit m.code)) (linesOf o) := by
    refine forall_outcomes fun i hmem j ↦ settles_linesOf fun part hpart ↦ ?_
    refine settles_instr (hi i hmem) (fun k hcall ↦ ⟨hk i hmem k hcall, ?_⟩) (by omega) hpart
    have hle := length_args_le_argLimit hmem hcall
    omega
  have hle : (body c n m).maxDepth ≤ max 0 ((max 3 (1 + argLimit m.code) : Nat) : Int) :=
    max_track_le rfl hos
  omega

end Jasmin

namespace Program

variable {p : Program}

theorem settling_code (h : p.check = []) :
    ∀ tm ∈ p.lower.1.methods, ∀ i ∈ tm.code, i.Settling := by
  refine forall_code (P := fun _ _ ↦ True) h (fun _ _ e _ ↦ .of_forall (fun _ ↦ trivial) e) ?_ ?_
    fun m hm i hi ↦ ?_
  · refine ⟨.atoms (List.forall_mem_singleton.2 trivial), ?_, nofun⟩
    rintro k ⟨⟩
    rfl
  · exact ⟨.atoms nofun, nofun, nofun⟩
  · obtain ⟨sig, hsig⟩ := method_bodyScope hm
    refine ⟨hi.threeAddress, fun k ↦ hi.shaped, ?_⟩
    rintro x rfl
    obtain ⟨hret, hvoid, -⟩ := hi.returns hsig
    exact hvoid hret.symm

/-- Every program has three-address code. In an accepted one no method is given more of the stack
than three values take, or a receiver and the arguments of one call, however deep its expressions
are. -/
theorem stack_bounded (p : Program) :
    (∀ tm ∈ p.lower.1.methods, ∀ i ∈ tm.code, i.ThreeAddress) ∧
      (p.check = [] →
        ∀ mb ∈ p.lower.1.methods.zip (Jasmin.bodies p.lower.1 0 p.lower.1.methods),
          (∀ i ∈ mb.1.code, ∀ k ∈ i.call?, k.Countable) →
            mb.2.maxDepth ≤ max 3 (1 + argLimit mb.1.code)) := by
  refine ⟨p.threeAddress_lower, fun h ↦ ?_⟩
  rintro ⟨tm, b⟩ hmb hk
  obtain ⟨htm, -, k, rfl⟩ := Jasmin.mem_zip_bodies hmb
  exact Jasmin.maxDepth_body_le (settling_code h tm htm) hk

/-- `int f(int[] x, int y, int z) { x[0] = 1 + x[x[1]] * 2; return y; }` and
`int m(int[] x) { return this.f(x, this.f(x, 1, 2), 3 + x[0]); }`. -/
theorem stack_bounded_nested :
    let pos := Position.point 1 1
    let int : TypeExpr := ⟨.int, false, false, pos⟩
    let x : Ident := ⟨"x", pos⟩
    let y : Ident := ⟨"y", pos⟩
    let param : ParamDecl := ⟨{ int with isArray := true }, x, pos⟩
    let place := Expr.index (.ident x) (.index (.ident x) (.int 1 pos) pos) pos
    let product := Expr.binary (.arith .mul) place (.int 2 pos) pos
    let sum := Expr.binary (.arith .add) (.int 1 pos) product pos
    let call (args : List Expr) := Expr.call (.this pos) ⟨"f", pos⟩ args pos
    let inner := call [.ident x, .int 1 pos, .int 2 pos]
    let last := Expr.binary (.arith .add) (.int 3 pos) (.index (.ident x) (.int 0 pos) pos) pos
    let f : MethodDecl :=
      { isPublic := true, isStatic := false, ret := int, name := ⟨"f", pos⟩, pos
        params := [param, ⟨int, y, pos⟩, ⟨int, ⟨"z", pos⟩, pos⟩]
        body := [.assign x (some (.int 0 pos)) sum pos, .return (some (.ident y)) pos] }
    let m : MethodDecl :=
      { isPublic := true, isStatic := false, ret := int, name := ⟨"m", pos⟩, params := [param], pos
        body := [.return (some (call [.ident x, inner, last])) pos] }
    let p : Program := ⟨[], ⟨⟨"A", pos⟩, none, [], [f, m], pos⟩⟩
    let bodies := Jasmin.bodies p.lower.1 0 p.lower.1.methods
    p.check = [] ∧ (∀ tm ∈ p.lower.1.methods, ∀ i ∈ tm.code, ∀ k ∈ i.call?, k.Countable) ∧
      p.lower.1.methods.map (fun tm ↦ argLimit tm.code) = [0, 0, 3] ∧
      bodies.map (·.maxDepth) = [1, 3, 4] ∧
      ∀ mb ∈ p.lower.1.methods.zip bodies, mb.2.maxDepth ≤ max 3 (1 + argLimit mb.1.code) := by
  intro pos int x y param place product sum call inner last f m p bodies
  have hcheck : p.check = [] := by decide +kernel +zetaReduce
  have hk : ∀ tm ∈ p.lower.1.methods, ∀ i ∈ tm.code, ∀ k ∈ i.call?, k.Countable := by
    decide +kernel +zetaReduce
  refine ⟨hcheck, hk, by decide +kernel +zetaReduce, by decide +kernel +zetaReduce, ?_⟩
  rintro ⟨tm, b⟩ hmb
  exact (stack_bounded p).2 hcheck _ hmb (hk tm (List.of_mem_zip hmb).1)

end Program

end MiniJava

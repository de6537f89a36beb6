import MiniJava.Proofs.Assembly.Covers
import MiniJava.Proofs.Assembly.SlotTable
import MiniJava.Proofs.ReferenceSafety

namespace MiniJava

open Tac

namespace Tac

def Operand.Named (params : List Var) : Operand → Prop
  | .param _ name _ => name ∈ params.map (·.name)
  | .cls _ => False
  | .lit .. | .var .. | .elem .. | .this _ => True

def Operand.IsPlace : Operand → Prop
  | .var .. | .param .. | .elem .. => True
  | .lit .. | .this _ | .cls _ => False

structure Instr.Expressible (params : List Var) (i : Instr) : Prop where
  named : ∀ x ∈ i.mentions, x.Named params
  place : ∀ dest t r, i = .assign dest t r → dest.IsPlace
  calls : i.CallsObjects

theorem Instr.Expressible.of_return {params : List Var} :
    (Instr.return .void none).Expressible params where
  named := nofun
  place _ _ _ hi := absurd hi nofun
  calls := ⟨fun _ _ _ _ hk ↦ absurd hk nofun, fun _ _ hk ↦ absurd hk nofun⟩

theorem Instr.Expressible.of_super {params : List Var} (cls : String) :
    (Instr.call ⟨.special (.this cls), .void⟩).Expressible params where
  named := List.forall_mem_singleton.2 trivial
  place _ _ _ hi := absurd hi nofun
  calls.virtual k recv name args hk hkind := by
    obtain rfl := Option.some.inj hk
    exact absurd hkind nofun
  calls.special k recv hk hkind hne := by
    obtain rfl := Option.some.inj hk
    exact absurd (CallKind.special.inj hkind).symm (hne cls)

end Tac

namespace Jasmin

variable {c : Tac.Class} {m : Tac.Method} {n : Nat} {i : Instr}

theorem slot_ok {x : String} (h : x ∈ m.slots.names) : ∃ ki, slot m x = .ok ki := by
  obtain ⟨i, t, hx⟩ := Slots.get?_of_mem h
  exact ⟨(kindOf t, i), by rw [slot, hx]⟩

section

variable {receiver : Option String} (hm : m.slots = .ofCode receiver m.params m.code)

include hm

theorem param_mem_names {name : String} (h : name ∈ m.params.map (·.name)) :
    name ∈ m.slots.names := by
  rw [hm, Slots.ofCode, Slots.mem_names_declareAll, Slots.mem_names_declareAll]
  exact .inl (.inr h)

theorem var_mem_names (hi : i ∈ m.code) {name : String} {t : ValType}
    (h : .var name t ∈ i.mentions) : name ∈ m.slots.names := by
  rw [hm, Slots.ofCode, Slots.mem_names_declareAll]
  refine .inr (List.mem_map.2 ⟨⟨name, t⟩, List.mem_filterMap.2 ⟨.var name t, ?_, rfl⟩, rfl⟩)
  exact List.mem_flatMap.2 ⟨i, hi, h⟩

theorem load_ok (hi : i ∈ m.code) (hn : ∀ x ∈ i.mentions, x.Named m.params) {x : Operand}
    (hx : ∀ y ∈ x.parts, y ∈ i.mentions) : ∃ part, load m x = .ok part := by
  induction x with
  | lit v t => exact ⟨_, rfl⟩
  | this cls => exact ⟨_, rfl⟩
  | var name t =>
    obtain ⟨ki, hki⟩ := slot_ok (var_mem_names hm hi (hx _ (List.mem_singleton_self _)))
    exact ⟨_, bind_eq_ok.2 ⟨ki, hki, rfl⟩⟩
  | param j name t =>
    obtain ⟨ki, hki⟩ := slot_ok (param_mem_names hm (hn _ (hx _ (List.mem_singleton_self _))))
    exact ⟨_, bind_eq_ok.2 ⟨ki, hki, rfl⟩⟩
  | elem array index t iha ihi =>
    obtain ⟨-, hparts⟩ := List.forall_mem_cons.1 hx
    obtain ⟨harray, hindex⟩ := List.forall_mem_append.1 hparts
    obtain ⟨as, ha⟩ := iha harray
    obtain ⟨is, hi⟩ := ihi hindex
    exact ⟨_, bind_eq_ok.2 ⟨as, ha, bind_eq_ok.2 ⟨is, hi, rfl⟩⟩⟩
  | cls name => exact (hn _ (hx _ (List.mem_singleton_self _))).elim

end

theorem loadAll_ok {xs : List Operand} (h : ∀ x ∈ xs, ∃ part, load m x = .ok part) :
    ∃ part, loadAll m xs = .ok part := by
  induction xs with
  | nil => exact ⟨[], rfl⟩
  | cons x xs ih =>
    obtain ⟨⟨first, hf⟩, hrest⟩ := List.forall_mem_cons.1 h
    obtain ⟨rest, hr⟩ := ih hrest
    exact ⟨_, bind_eq_ok.2 ⟨first, hf, bind_eq_ok.2 ⟨rest, hr, rfl⟩⟩⟩

theorem owner_ok {t : ValType} (h : t.IsObject) : ∃ cls, owner m t = .ok cls := by
  cases t with
  | cls name => exact ⟨name, rfl⟩
  | string => exact ⟨_, rfl⟩
  | int | bool | void | array => exact h.elim

theorem constructorOwner_ok {x : Operand} (h : (∀ cls, x ≠ .this cls) → x.ty.IsObject) :
    ∃ path, constructorOwner c m x = .ok path := by
  have hother (hne : ∀ cls, x ≠ .this cls) : ∃ path, c.classPath <$> owner m x.ty = .ok path := by
    obtain ⟨cls, hcls⟩ := owner_ok (m := m) (h hne)
    exact ⟨c.classPath cls, by rw [hcls]; rfl⟩
  cases x with
  | this cls => exact ⟨_, rfl⟩
  | lit | var | param | elem | cls => exact hother nofun

theorem jumpLess_ok {left right : Operand} {l : String} (hl : ∃ part, load m left = .ok part)
    (hr : ∃ part, load m right = .ok part) : ∃ part, jumpLess m left right l = .ok part := by
  obtain ⟨ls, hl⟩ := hl
  obtain ⟨rs, hr⟩ := hr
  unfold jumpLess
  split_ifs
  · exact ⟨_, bind_eq_ok.2 ⟨ls, hl, rfl⟩⟩
  · exact ⟨_, bind_eq_ok.2 ⟨rs, hr, rfl⟩⟩
  · exact ⟨_, bind_eq_ok.2 ⟨ls, hl, bind_eq_ok.2 ⟨rs, hr, rfl⟩⟩⟩

theorem call_ok {k : Call} (hload : ∀ x ∈ k.kind.operands, ∃ part, load m x = .ok part)
    (hvirtual : ∀ recv method args, k.kind = .virtual recv method args → recv.ty.IsObject)
    (hspecial : ∀ recv, k.kind = .special recv → (∀ cls, recv ≠ .this cls) → recv.ty.IsObject) :
    ∃ part, call c m k = .ok part := by
  obtain ⟨kind, ret⟩ := k
  cases kind with
  | static cls method args =>
    obtain ⟨values, hv⟩ := loadAll_ok hload
    exact ⟨_, bind_eq_ok.2 ⟨values, hv, rfl⟩⟩
  | virtual recv method args =>
    obtain ⟨⟨receiver, hr⟩, hargs⟩ := List.forall_mem_cons.1 hload
    obtain ⟨values, hv⟩ := loadAll_ok hargs
    obtain ⟨cls, hcls⟩ := owner_ok (m := m) (hvirtual recv method args rfl)
    exact ⟨_, bind_eq_ok.2 ⟨cls, hcls, bind_eq_ok.2 ⟨receiver, hr, bind_eq_ok.2 ⟨values, hv, rfl⟩⟩⟩⟩
  | special recv =>
    obtain ⟨receiver, hr⟩ := hload recv (List.mem_singleton_self recv)
    obtain ⟨path, hp⟩ := constructorOwner_ok (c := c) (m := m) (hspecial recv rfl)
    exact ⟨_, bind_eq_ok.2 ⟨path, hp, bind_eq_ok.2 ⟨receiver, hr, rfl⟩⟩⟩
  | new cls => exact ⟨_, rfl⟩
  | newArray x | length x =>
    obtain ⟨value, hv⟩ := hload x (List.mem_singleton_self x)
    exact ⟨_, bind_eq_ok.2 ⟨value, hv, rfl⟩⟩

theorem rhs_ok {r : Rhs} (hload : ∀ x ∈ r.operands, ∃ part, load m x = .ok part)
    (hcall : ∀ k, r = .call k → ∃ part, call c m k = .ok part) :
    ∃ part, rhs c m n r = .ok part := by
  cases r with
  | value x => exact hload x (List.mem_singleton_self x)
  | arith op left right =>
    obtain ⟨⟨ls, hl⟩, rs, hr⟩ := forall_mem_two.1 hload
    exact ⟨_, bind_eq_ok.2 ⟨ls, hl, bind_eq_ok.2 ⟨rs, hr, rfl⟩⟩⟩
  | less left right =>
    obtain ⟨hl, hr⟩ := forall_mem_two.1 hload
    obtain ⟨test, ht⟩ := jumpLess_ok (l := trueLabel n) hl hr
    exact ⟨_, bind_eq_ok.2 ⟨test, ht, rfl⟩⟩
  | not x =>
    obtain ⟨value, hv⟩ := hload x (List.mem_singleton_self x)
    exact ⟨_, bind_eq_ok.2 ⟨value, hv, rfl⟩⟩
  | field name t => exact ⟨_, rfl⟩
  | call k => exact hcall k rfl

/-- What is stored in can be loaded, so its slot is known. -/
theorem store_ok {x : Operand} (hplace : x.IsPlace) (hno : ∀ a i t, x ≠ .elem a i t)
    (hload : ∃ part, load m x = .ok part) : ∃ line, store m x = .ok line := by
  obtain ⟨part, h⟩ := hload
  cases x with
  | var | param =>
    obtain ⟨ki, hki, -⟩ := bind_eq_ok.1 h
    exact ⟨_, bind_eq_ok.2 ⟨ki, hki, rfl⟩⟩
  | elem a i t => exact absurd rfl (hno a i t)
  | lit | this | cls => exact hplace.elim

theorem instr_ok {params : List Var} (h : i.Expressible params)
    (hload : ∀ x ∈ i.operands, ∃ part, load m x = .ok part) :
    ∃ part, (instr c m n i).1 = .ok part := by
  have hcall (k : Call) (hk : i.call? = some k)
      (hx : ∀ x ∈ k.kind.operands, ∃ part, load m x = .ok part) : ∃ part, call c m k = .ok part :=
    call_ok hx (fun recv method args ↦ h.calls.virtual k recv method args hk)
      fun recv ↦ h.calls.special k recv hk
  cases i with
  | assign dest t r =>
    obtain ⟨hdest, hrhs⟩ := List.forall_mem_cons.1 hload
    obtain ⟨v, hv⟩ : ∃ part, rhs c m n r = .ok part := by
      refine rhs_ok hrhs ?_
      rintro k rfl
      exact hcall k rfl hrhs
    have hplace := h.place dest t r rfl
    have hline (hno : ∀ a i t, dest ≠ .elem a i t) := store_ok hplace hno hdest
    cases dest with
    | elem array index ty =>
      obtain ⟨part, hpart⟩ := hdest
      obtain ⟨as, ha, hpart⟩ := bind_eq_ok.1 hpart
      obtain ⟨is, hi, -⟩ := bind_eq_ok.1 hpart
      have hloaded : loadPlace m array index = .ok (as ++ is) :=
        bind_eq_ok.2 ⟨as, ha, bind_eq_ok.2 ⟨is, hi, rfl⟩⟩
      refine ⟨as ++ is ++ v ++ [.op (.arrayStore (elementKind ty)) (-3)], ?_⟩
      rw [instr, hloaded]
      exact bind_eq_ok.2 ⟨v, hv, rfl⟩
    | lit | var | param | this | cls =>
      obtain ⟨line, hl⟩ := hline (by simp)
      exact ⟨_, bind_eq_ok.2 ⟨v, hv, bind_eq_ok.2 ⟨line, hl, rfl⟩⟩⟩
  | putField name t x =>
    obtain ⟨v, hv⟩ := hload x (List.mem_singleton_self x)
    exact ⟨_, bind_eq_ok.2 ⟨v, hv, rfl⟩⟩
  | call k =>
    obtain ⟨v, hv⟩ := hcall k rfl hload
    exact ⟨_, bind_eq_ok.2 ⟨v, hv, rfl⟩⟩
  | branch cond l =>
    cases cond with
    | value x =>
      obtain ⟨v, hv⟩ := hload x (List.mem_singleton_self x)
      exact ⟨_, bind_eq_ok.2 ⟨v, hv, rfl⟩⟩
    | less left right =>
      obtain ⟨hl, hr⟩ := forall_mem_two.1 hload
      exact jumpLess_ok hl hr
  | goto l | label l | invalid l => exact ⟨_, rfl⟩
  | «return» t x =>
    cases x with
    | none => exact ⟨_, rfl⟩
    | some x =>
      obtain ⟨v, hv⟩ := hload x (List.mem_singleton_self x)
      exact ⟨_, bind_eq_ok.2 ⟨v, hv, rfl⟩⟩

/-- A method in which no instruction uses what is not there has no findings. -/
theorem findings_body_of_expressible {receiver : Option String}
    (hm : m.slots = .ofCode receiver m.params m.code) (h : ∀ i ∈ m.code, i.Expressible m.params)
    (hf : ∀ i ∈ m.code, i.Fed) : (body c n m).findings = [] := by
  refine findings_body (fun i hi k ↦ instr_ok (h i hi) fun x hx ↦ ?_) hf
  exact load_ok hm hi (h i hi).named fun y hy ↦ List.mem_flatMap.2 ⟨x, hx, hy⟩

end Jasmin

end MiniJava

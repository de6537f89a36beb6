import MiniJava.Proofs.Assembly.Expressible

namespace MiniJava

open Tac Lower

namespace Scope

section

variable (s : Scope)

/-- Methods are called on classes, on values of known type and on what generated code takes for
objects. -/
def Callable (recv : Expr) : Prop :=
  (s.className? recv).isSome ∨ s.Known recv ∨ ∀ v, s.Gives recv none v → v.ty.IsObject

def Usable : Expr → Option ValType → Prop
  | .call recv method _ _, hint =>
    (s.callTyping recv method.name).valType hint ≠ .void ∧ s.Callable recv
  | e, _ => s.className? e = none

def Allowed : Stmt → Prop
  | .expr e _ => ∀ recv method args pos, e.unparen = .call recv method args pos → s.Callable recv
  | .assign target _ _ _ => s.binding target.name ≠ .cls
  | .var _ | .block .. | .ifThen .. | .ifElse .. | .while .. | .return .. => True

def Clean (e : Expr) (hint : Option ValType) : Prop :=
  s.Throughout (fun e hint ↦ s.Checked (fun _ ↦ True) e ∧ s.Usable e hint) e hint

structure CleanStmt (stmt : Stmt) : Prop where
  checked : s.CheckedStmt (fun _ ↦ True) stmt
  allowed : s.Allowed stmt
  parts : ∀ p ∈ s.stmtParts stmt, s.Clean p.1 p.2

end

variable {s : Scope} {e recv : Expr} {hint : Option ValType} {stmt : Stmt} {m : Signature}
  {method : Ident} {args : List Expr} {pos : Position} {i : Instr} {params : List Var}

theorem StmtThroughout.clean
    (h : s.StmtThroughout (fun e _ ↦ s.Checked (fun _ ↦ True) e) (s.CheckedStmt fun _ ↦ True) stmt)
    (hu : s.StmtThroughout s.Usable s.Allowed stmt) :
    s.StmtThroughout s.Clean s.CleanStmt stmt := by
  induction h with
  | intro stmt hs hp _ ih =>
    cases hu with
    | intro _ hallowed hup hinner =>
      have hparts (p : Expr × Option ValType) (hmem : p ∈ s.stmtParts stmt) : s.Clean p.1 p.2 :=
        (hp p hmem).and (hup p hmem)
      exact .intro stmt ⟨hs, hallowed, hparts⟩ (fun p hmem ↦ (hparts p hmem).nested)
        fun x hx ↦ ih x hx (hinner x hx)

theorem Part.clean (h : s.Part s.Clean s.CleanStmt e hint) : s.Clean e hint := by
  rcases h with ⟨e', hint', he, hmem⟩ | ⟨stmt, hs, hmem⟩
  · exact he.inside _ hmem
  · exact hs.parts _ hmem

theorem checked_of_evaluates (hm : s.method = some m) (h : Evaluates s.Clean s.CleanStmt e) :
    s.Checked (fun _ ↦ True) e := by
  refine Checked.of_evaluates hm ?_
  rcases h with ⟨hint, he⟩ | ⟨e', pos, hs, heq⟩
  · exact .inl ⟨hint, he.here.1⟩
  · exact .inr ⟨e', pos, hs.checked, heq⟩

theorem callable_of_evaluates (h : Evaluates s.Clean s.CleanStmt (.call recv method args pos)) :
    s.Callable recv := by
  rcases h with ⟨hint, he⟩ | ⟨e', pos', hs, heq⟩
  · exact he.here.2.2
  · exact hs.allowed recv method args pos heq

theorem Usable.not_class (h : s.Usable e hint) : s.className? e = none := by
  cases e with
  | call => rfl
  | int | bool | ident | this | binary | not | paren | index | length | newObject | newArray
  | array => exact h

/-- A method that the checker accepts is called on an object. -/
theorem isObject_of_callable (hc : s.Checked (fun _ ↦ True) (.call recv method args pos))
    (h : s.Callable recv) (hnamed : s.className? recv = none) {r : Operand}
    (hr : s.Gives recv none r) : r.ty.IsObject := by
  rcases h with hsome | ⟨ty, hty⟩ | hobject
  · simp [hnamed] at hsome
  · have hcheck := hc.check
    simp only [check, hnamed, List.append_eq_nil_iff] at hcheck
    have hcls := receiverClass_of_check hnamed hty hcheck.2
    have hobject : ty.isObject = true := by
      by_contra hno
      simp [receiverClass, dispatch, hnamed, hty, hno] at hcls
    obtain ⟨n, rfl⟩ := hr
    rcases ty_lower_cases hcheck.1.1 hty none n with hv | ⟨name, -, -, hv⟩
    · rw [hv]
      exact ValType.isObject_ofTy hobject
    · rw [hv]
      trivial
  · exact hobject r hr

section

variable (hp : ∀ name i q, s.binding name = .param i q → name ∈ params.map (·.name))

include hp

theorem named_lowerIdent {id : Ident} (h : s.binding id.name ≠ .cls) (hint : Option ValType)
    (n : Numbering) : (s.lowerIdent id hint n).value.Named params := by
  unfold lowerIdent
  cases hb : s.binding id.name with
  | cls => exact absurd hb h
  | param i q => exact hp id.name i q hb
  | «local» | field | inherited | undeclared => trivial

theorem named_lower (h : s.className? e = none) (hint : Option ValType) (n : Numbering) :
    (s.lower e hint n).value.Named params := by
  induction e using Expr.children_induction generalizing hint n with
  | step e ih =>
    cases e with
    | ident id =>
      refine named_lowerIdent hp ?_ hint n
      simpa [className?, Expr.unparen] using h
    | binary op left right pos => cases op <;> trivial
    | paren e pos => exact ih e (List.mem_singleton_self e) h hint n
    | newObject cls pos =>
      obtain ⟨x, hx⟩ := lower_newObject_value cls pos hint n
      rw [hx]
      trivial
    | int | bool | this | not | index | length | call | newArray | array => trivial

theorem named_of_storage {name : String} {x : Operand} (h : s.storage? name = some x) :
    x.Named params := by
  obtain ⟨i, q, hb, rfl⟩ | ⟨v, -, rfl⟩ := storage_cases h
  · exact hp name i q hb
  · trivial

theorem named_of_source {x : Operand} (h : s.Source s.Clean s.CleanStmt x) : x.Named params := by
  cases h with
  | literal | made => trivial
  | value hpart hv =>
    obtain ⟨n, rfl⟩ := hv
    exact named_lower hp hpart.clean.here.2.not_class _ n
  | stored h => exact named_of_storage hp h

end

theorem returnTy_of_check (hm : s.method = some m) (h : s.checkStmt (.return none pos) = []) :
    s.returnTy = .void := by
  have hvoid : m.ret = .void := by
    by_contra hno
    simp [checkStmt, checkReturn, hm, hno] at h
  have hret : s.returnTy = .ofTy m.ret := by rw [returnTy, hm, Option.elim_some]
  exact hret.trans ((ValType.ofTy_eq_void_iff m.ret).2 hvoid)

/-- Only calls and returns may lack a value that is wanted of them. -/
theorem Issued.fed_of {E : Expr → Option ValType → Prop} {S : Stmt → Prop} (h : s.Issued E S i)
    (hcall : ∀ recv method args pos hint, E (.call recv method args pos) hint →
      (s.callTyping recv method.name).valType hint ≠ .void)
    (hreturn : ∀ pos, S (.return none pos) → s.returnTy = .void) : i.Fed := by
  cases h with
  | call x he hk =>
    obtain ⟨n, rfl⟩ := hk
    have hvoid := hcall _ _ _ _ _ he
    rw [← ret_lowerCallWith] at hvoid
    exact (Call.results_eq (shaped_lowerCall ..)).trans (if_neg hvoid)
  | effect _ _ hk =>
    obtain ⟨n, rfl⟩ := hk
    exact shaped_lowerCall ..
  | returnNone hs => exact hreturn _ hs
  | read | arith | less | skip | last | not | index | length | object | newArray | allocate
  | element | packed | argument | storeAt | store | construct => rfl
  | and | undeclared | unknownClass | unassignable | goto | label | test | compare
  | put | returnSome => trivial

theorem isPlace_of_storage {name : String} {x : Operand} (h : s.storage? name = some x) :
    x.IsPlace := by
  obtain ⟨i, q, -, rfl⟩ | ⟨v, -, rfl⟩ := storage_cases h
  · trivial
  · trivial

variable (h : s.Issued s.Clean s.CleanStmt i)

include h

theorem Issued.isPlace {dest : Operand} {t : ValType} {r : Rhs} (hi : i = .assign dest t r) :
    dest.IsPlace := by
  cases h with
  | store _ hdest _ =>
    obtain rfl := (Instr.assign.inj hi).1
    exact isPlace_of_storage hdest
  | read | arith | less | skip | last | not | index | length | object | newArray | allocate
  | element | call | packed | argument | storeAt =>
    obtain rfl := (Instr.assign.inj hi).1
    trivial
  | and | construct | undeclared | unknownClass | unassignable | goto | label | test | compare
  | effect | put | returnNone | returnSome => exact absurd hi nofun

theorem Issued.callsObjects (hm : s.method = some m) : i.CallsObjects where
  virtual k recv name vs hk hkind := by
    cases h.makes hk with
    | length | object | construct | newArray | allocate => exact absurd hkind nofun
    | method he hgives =>
      obtain ⟨-, n, ⟨cls, -, hcall⟩ | ⟨hnamed, r, hr, hcall⟩⟩ := hgives.cases
      · exact absurd (hkind.symm.trans hcall) nofun
      · obtain ⟨rfl, -⟩ := CallKind.virtual.inj (hkind.symm.trans hcall)
        exact isObject_of_callable (checked_of_evaluates hm he) (callable_of_evaluates he) hnamed hr
  special k recv hk hkind _ := by
    cases h.makes hk with
    | construct x cls =>
      obtain rfl := CallKind.special.inj hkind
      trivial
    | length | object | newArray | allocate => exact absurd hkind nofun
    | method _ hgives =>
      rcases hgives.isMethod with ⟨cls, name, vs, hcall⟩ | ⟨r, name, vs, hcall⟩
      · exact absurd (hkind.symm.trans hcall) nofun
      · exact absurd (hkind.symm.trans hcall) nofun

theorem Issued.expressible (hm : s.method = some m)
    (hp : ∀ name i q, s.binding name = .param i q → name ∈ params.map (·.name)) :
    i.Expressible params where
  named x hx := by
    rcases h.source hx with hsource | ⟨a, idx, ty, rfl⟩
    · exact named_of_source hp hsource
    · trivial
  place _ _ _ hi := h.isPlace hi
  calls := h.callsObjects hm

theorem Issued.fed (hm : s.method = some m) : i.Fed :=
  h.fed_of (fun _ _ _ _ _ he ↦ he.here.2.1) fun _ hs ↦ returnTy_of_check hm hs.checked.check

/-- Nothing in a clean method is without a rule. -/
theorem Issued.not_invalid (hm : s.method = some m) (what : String) : i ≠ .invalid what := by
  cases h with
  | read | arith | less | skip | last | not | index | length | object | newArray | allocate
  | element | call | packed | argument | storeAt | store | construct | and | goto | label | test
  | compare | effect | put | returnNone | returnSome => exact nofun
  | undeclared _ he hb =>
    have hcheck := (checked_of_evaluates hm he).check
    simp [check, checkIdent, hb] at hcheck
  | unknownClass _ he hno =>
    have hcheck := he.here.1.check
    simp [check, hno] at hcheck
  | @unassignable target index value pos _ hs hstorage hfield =>
    cases hb : s.binding target.name with
    | param | «local» => simp [storage?, hb] at hstorage
    | field | inherited => simp [fieldTy?, hb] at hfield
    | cls => exact absurd hb hs.allowed
    | undeclared =>
      have hcheck := hs.checked.check
      simp [checkStmt, checkTarget, hb] at hcheck

end Scope

end MiniJava

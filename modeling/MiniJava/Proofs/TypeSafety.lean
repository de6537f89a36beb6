import MiniJava.Proofs.Checking.Stores

namespace MiniJava

open Tac Lower

namespace Scope

variable {s : Scope} {e : Expr} {hint : Option ValType} {v : Operand} {m : Signature}

/-- The type is known of an expression that depends on nothing outside the program. -/
def Known (s : Scope) (e : Expr) : Prop := ∃ ty, s.typing e = .known ty

variable (hn : s.symbols.NamesApart)

include hn

theorem Checked.ty_of_refuse (h : s.Checked s.Known e) {t : Ty} {fault : String → Fault}
    {pos : Position} (hr : s.refuse (· == t) fault e pos = []) (hv : s.Gives e hint v) :
    v.ty = .ofTy t := by
  obtain ⟨ty, hty⟩ := h.everywhere.here
  obtain rfl : ty = t := by simpa using accepts_of_refuse hr hty
  exact hv.ty_eq hn h.check hty

theorem Checked.compatible (h : s.Checked s.Known e) {t : Ty} (ha : s.Accepts t e)
    (hv : s.Gives e hint v) : v.ty.Compatible (.ofTy t) :=
  ha.compatible hn h.check h.everywhere.here hv

theorem Suits.compatible {ty : ValType} (hs : s.Suits ty e) (h : s.Checked s.Known e)
    (hv : s.Gives e hint v) : v.ty.Compatible ty := by
  rcases hs with ⟨t, rfl, ha⟩ | rfl
  · exact h.compatible hn ha hv
  · obtain ⟨ty, hty⟩ := h.everywhere.here
    left
    rw [hv.ty_eq hn h.check hty, valType, hty]
    rfl

theorem ty_left {op : BinOp} {left right : Expr} {pos : Position}
    (h : s.Checked s.Known (.binary op left right pos)) (hv : s.Gives left hint v) :
    v.ty = .ofTy op.operandTy := by
  have hcheck := h.check
  simp only [check, List.append_eq_nil_iff] at hcheck
  have hleft : s.Checked s.Known left := h.child List.mem_cons_self
  exact hleft.ty_of_refuse hn hcheck.1.2 hv

theorem ty_right {op : BinOp} {left right : Expr} {pos : Position}
    (h : s.Checked s.Known (.binary op left right pos)) (hv : s.Gives right hint v) :
    v.ty = .ofTy op.operandTy := by
  have hcheck := h.check
  simp only [check, List.append_eq_nil_iff] at hcheck
  have hright : s.Checked s.Known right :=
    h.child (List.mem_cons_of_mem left (List.mem_singleton_self right))
  exact hright.ty_of_refuse hn hcheck.2 hv

omit hn in
theorem ty_base {base : Expr} (h : s.Checked s.Known base) (hb : s.checkBase base = [])
    (hv : s.Gives base none v) : ∃ ty, v.ty = .array ty := by
  obtain ⟨t, ht⟩ := h.everywhere.here
  exact ⟨_, hv.array_of_known h.check ht (accepts_of_refuse hb ht)⟩

omit hn in
theorem typing_of_checkElements {t : Ty} {es : List Expr}
    (h : s.checkElements (some t) es = []) : ∀ e ∈ es, s.Known e → s.typing e = .known t := by
  induction es with
  | nil => nofun
  | cons e es ih =>
    obtain ⟨he, hes⟩ := List.append_eq_nil_iff.1 h
    obtain ⟨-, hfirst⟩ := List.append_eq_nil_iff.1 he
    refine List.forall_mem_cons.2 ⟨?_, ih hes⟩
    rintro ⟨ty, hty⟩
    obtain rfl : ty = t := by simpa using accepts_of_refuse hfirst hty
    exact hty

theorem ty_element {elems : List Expr} {pos : Position}
    (h : s.Checked s.Known (.array elems pos)) (he : e ∈ elems) (hv : s.Gives e hint v) :
    v.ty = s.literalElement elems := by
  have hknown : s.Checked s.Known e := h.child he
  cases elems with
  | nil => exact absurd he List.not_mem_nil
  | cons e₀ es =>
    have hfirst : s.Checked s.Known e₀ := h.child List.mem_cons_self
    obtain ⟨t, ht⟩ := hfirst.everywhere.here
    have hrest : s.checkElements (some t) es = [] := by
      have hcheck : s.checkElements none (e₀ :: es) = [] := h.check
      simp only [checkElements, List.append_eq_nil_iff, ht] at hcheck
      exact hcheck.2
    have hty : s.typing e = .known t := by
      rcases List.mem_cons.1 he with rfl | he
      · exact ht
      · exact typing_of_checkElements hrest e he hknown.everywhere.here
    rw [hv.ty_eq hn hknown.check hty, literalElement, valType, ht]
    rfl

section

variable (hw : ∀ name m, s.symbols.method? name = some m → m.WellFormed)

include hw

theorem fit_packed {recv : Expr} {method : Ident} {args : List Expr} {pos : Position}
    (h : s.Checked s.Known (.call recv method args pos)) {p : Parameter}
    (hp : s.packing? (s.target? recv method.name) args = some p)
    (he : e ∈ packedArgs (s.target? recv method.name) args) (hv : s.Gives e hint v) :
    ValType.ofTy p.symbol.ty = .array p.element ∧ v.ty.Compatible p.element := by
  obtain ⟨m, hm, hpacked, hvarargs⟩ := packing_eq_some hp
  have hwf := hw _ m (method?_of_target hm)
  obtain ⟨harray, helement⟩ := Parameter.ofTy_eq_array (hwf.array_of_varargs hvarargs)
  have hcheck := h.check
  simp only [check, checkCall, hm, List.append_eq_nil_iff] at hcheck
  obtain ⟨-, hcall⟩ := hcheck
  obtain ⟨ty, hty⟩ := h.everywhere.here
  have htyping : s.callTyping recv method.name = .known ty := hty
  have hargs : s.checkArguments m args pos = [] := by simpa [htyping] using hcall
  have hmem : e ∈ args.drop m.fixedCount := by
    simpa [packedArgs, hm, (fixedCount_of_varargs hvarargs).1] using he
  have hknown : s.Checked s.Known e :=
    h.child (List.mem_cons_of_mem recv (List.mem_of_mem_drop hmem))
  refine ⟨harray, ?_⟩
  rw [helement]
  exact hknown.compatible hn (accepts_packed hargs hwf hpacked e hmem) hv

theorem admits_lowerArgs {recv : Expr} {method : Ident} {args : List Expr} {pos : Position}
    (h : s.Checked s.Known (.call recv method args pos))
    (hcls : s.receiverClass recv = .ok s.symbols.className) (n : Numbering) :
    s.symbols.Admits method.name
      (s.lowerArgs (s.target? recv method.name) args (args.map s.lower) n).value
      ((s.callTyping recv method.name).valType hint) := by
  intro m hm
  have htarget : s.target? recv method.name = some m := by simp [target?, hcls, hm]
  have htyping : s.callTyping recv method.name = .known m.ret := by
    simp [callTyping, hcls, methodTyping, Symbols.returnTy?, hm]
  have hcheck := h.check
  simp only [check, checkCall, htyping, htarget, List.append_eq_nil_iff] at hcheck
  rw [htarget, htyping]
  refine ⟨rfl, fit_lowerArgs hn (fun e he ↦ ?_) n hcheck.2 (hw _ m hm)⟩
  have hknown : s.Checked s.Known e := h.child (List.mem_cons_of_mem recv he)
  exact ⟨hknown.check, hknown.everywhere.here⟩

omit hn hw in
theorem isClassName_of_methodTyping {cls method : String} {ty : Ty}
    (h : s.methodTyping cls method = .known ty) : s.symbols.isClassName cls := by
  unfold methodTyping at h
  split at h
  · next hcls =>
    subst hcls
    exact s.symbols.isClassName_className
  · split at h
    · next hsuper => simp [Symbols.isClassName, hsuper]
    · split at h <;> cases h

omit hn hw in
theorem isObject_of_receiverClass {recv : Expr} {ty : Ty} {cls : String}
    (hnamed : s.className? recv = none) (ht : s.typing recv = .known ty)
    (h : s.receiverClass recv = .ok cls) : ty = .object cls := by
  simp only [receiverClass, hnamed, ht, dispatch] at h
  split at h
  · next hobject =>
    obtain rfl := Except.ok.inj h
    simp only [Ty.isObject, Bool.and_eq_true, Bool.not_eq_true'] at hobject
    obtain ⟨name, isArray⟩ := ty
    obtain rfl : isArray = false := hobject.1.1
    rfl
  · cases h

theorem wellTyped_call {recv : Expr} {method : Ident} {args : List Expr} {pos : Position}
    (h : s.Checked s.Known (.call recv method args pos)) {k : Call}
    (hk : s.GivesCall recv method args hint k) : k.WellTyped s.symbols := by
  obtain ⟨hret, n, ⟨cls, hnamed, hkind⟩ | ⟨hnamed, r, hr, hkind⟩⟩ := hk.cases
  · simp only [Call.WellTyped, hkind, hret]
    rintro rfl
    refine admits_lowerArgs hn hw h ?_ n
    simp [receiverClass, dispatch, hnamed]
  · have hrecv : s.Checked s.Known recv := h.child List.mem_cons_self
    obtain ⟨ty, hty⟩ := hrecv.everywhere.here
    have hcheck := h.check
    simp only [check, List.append_eq_nil_iff] at hcheck
    have hcls := receiverClass_of_check hnamed hty hcheck.2
    obtain ⟨t, ht⟩ := h.everywhere.here
    have hmethod : s.methodTyping ty.name method.name = .known t := by
      have htyping : s.callTyping recv method.name = .known t := ht
      simpa [callTyping, hcls] using htyping
    have hclass := isClassName_of_methodTyping hmethod
    have hobject := isObject_of_receiverClass hnamed hty hcls
    have hrty : r.ty = .cls ty.name := by
      rw [hr.ty_eq hn hrecv.check hty, ← hn.ofTy_object hclass, ← hobject]
    simp only [Call.WellTyped, hkind, hret]
    refine ⟨ty.name, hrty, fun heq ↦ admits_lowerArgs hn hw h ?_ n⟩
    rw [hcls, heq]

end

omit hn in
theorem checkCondition_of_cond? {stmt : Stmt} {cond : Expr} (h : s.checkStmt stmt = [])
    (hc : stmt.cond? = some cond) : s.checkCondition cond = [] ∧ cond ∈ stmt.exprs := by
  cases stmt with
  | var | block | expr | assign | «return» => exact absurd hc nofun
  | ifThen c body pos | «while» c body pos =>
    obtain rfl := Option.some.inj hc
    exact ⟨(List.append_eq_nil_iff.1 h).1, List.mem_cons_self⟩
  | ifElse c body other pos =>
    obtain rfl := Option.some.inj hc
    exact ⟨(List.append_eq_nil_iff.1 (List.append_eq_nil_iff.1 h).1).1, List.mem_cons_self⟩

theorem ty_cond {stmt : Stmt} {cond : Expr} (hm : s.method = some m)
    (h : s.CheckedStmt s.Known stmt) (hc : stmt.cond? = some cond) (hv : s.Gives cond hint v) :
    v.ty = .bool := by
  obtain ⟨hcheck, hmem⟩ := checkCondition_of_cond? h.check hc
  exact (h.expr hm cond hmem).ty_of_refuse hn (List.append_eq_nil_iff.1 hcheck).2 hv

/-- The instructions for the parts of an accepted method demand nothing that they do not get. -/
theorem Issued.consistent (hw : ∀ name m, s.symbols.method? name = some m → m.WellFormed)
    (hm : s.method = some m) {i : Instr}
    (h : s.Issued (fun e _ ↦ s.Checked s.Known e) (s.CheckedStmt s.Known) i) :
    i.Consistent s.symbols := by
  cases h with
  | read | skip | object | allocate | packed => exact ⟨rfl, .refl _, by trivial⟩
  | construct x cls => exact ⟨cls, rfl⟩
  | arith x he ha hb | less x he ha hb =>
    exact ⟨rfl, .refl _, ty_left hn he ha, ty_right hn he hb⟩
  | compare l he ha hb => exact ⟨ty_left hn he ha, ty_right hn he hb⟩
  | and l he ha => exact ty_left hn he ha
  | last x he hb => exact ⟨rfl, .inl (ty_right hn he hb), trivial⟩
  | @not e pos hint a x he ha =>
    have hcheck : s.check e = [] ∧ s.refuse (· == .boolean) _ e pos = [] :=
      List.append_eq_nil_iff.1 he.check
    have hinner : s.Checked s.Known e := he.child (List.mem_singleton_self e)
    exact ⟨rfl, .refl _, hinner.ty_of_refuse hn hcheck.2 ha⟩
  | index x he ha hi hty => exact ⟨rfl, .refl _, trivial⟩
  | @length base pos hint a x he ha =>
    have hcheck : s.check base = [] ∧ s.checkBase base = [] := List.append_eq_nil_iff.1 he.check
    exact ⟨rfl, .refl _, ty_base (he.child (List.mem_singleton_self base)) hcheck.2 ha⟩
  | @newArray size pos hint a x he ha =>
    have hcheck : s.check size = [] ∧ s.checkIndex size = [] := List.append_eq_nil_iff.1 he.check
    have hsize : s.Checked s.Known size := he.child (List.mem_singleton_self size)
    exact ⟨rfl, .refl _, hsize.ty_of_refuse hn hcheck.2 ha⟩
  | element x i he hmem hty hv => exact ⟨rfl, .inl (hty ▸ ty_element hn he hmem hv), trivial⟩
  | call x he hk => exact ⟨rfl, .refl _, wellTyped_call hn hw he hk⟩
  | @effect e recv method args pos pos' k hs hcall hk =>
    have he := (hs.expr hm e (List.mem_singleton_self e)).unparen
    exact wellTyped_call hn hw (hcall ▸ he) hk
  | argument x i he hp hmem hv =>
    have hcall := Checked.of_evaluates hm he
    exact ⟨rfl, (fit_packed hn hw hcall hp hmem hv).2, trivial⟩
  | undeclared | unknownClass | unassignable | goto | label => trivial
  | test l hs hc ha => exact ty_cond hn hm hs hc ha
  | @store target value pos dest v hs hdest hv =>
    have hvalue := hs.expr hm value (List.mem_singleton_self value)
    exact ⟨rfl, (suits_storage hs.check hdest).compatible hn hvalue hv, trivial⟩
  | @put target value pos ty v hs hty hv =>
    have hvalue := hs.expr hm value (List.mem_singleton_self value)
    exact (suits_field hs.check hty).compatible hn hvalue hv
  | @storeAt target idx value pos a i v ty hs ha hty hi hv =>
    obtain ⟨t, ht, hsuits⟩ := suits_element hs.check ha
    obtain rfl : ty = t := by
      rw [hty, ht]
      rfl
    have hvalue := hs.expr hm value (List.mem_cons_of_mem idx (List.mem_singleton_self value))
    exact ⟨rfl, hsuits.compatible hn hvalue hv, trivial⟩
  | returnNone hs =>
    have hcheck := hs.check
    simp only [checkStmt, checkReturn, hm] at hcheck
    have hvoid : m.ret = .void := by
      by_contra hne
      simp [hne] at hcheck
    simp [Instr.Consistent, returnTy, hm, hvoid, ValType.ofTy_eq_void_iff]
  | @returnSome e pos v hs hv =>
    have hcheck := hs.check
    simp only [checkStmt, checkReturn, hm, List.append_eq_nil_iff] at hcheck
    have hvalue := hs.expr hm e (List.mem_singleton_self e)
    have hvoid : m.ret ≠ .void := by
      intro hvoid
      simp [hvoid] at hcheck
    simp only [hvoid, if_false] at hcheck
    have hret : s.returnTy = .ofTy m.ret := by simp [returnTy, hm]
    rw [hret]
    refine ⟨fun hty ↦ hvoid ((ValType.ofTy_eq_void_iff _).1 hty), ?_⟩
    exact hvalue.compatible hn (fun _ hty ↦ accepts_of_refuse hcheck.2 hty) hv

theorem Indexed.wellTyped (hw : ∀ name m, s.symbols.method? name = some m → m.WellFormed)
    (hm : s.method = some m) {a i : Operand} {ty : ValType}
    (h : s.Indexed (fun e _ ↦ s.Checked s.Known e) (s.CheckedStmt s.Known) a i ty) :
    a.ty = .array ty ∧ i.ty = .int := by
  constructor
  · refine h.ty_eq hw (fun base idx pos hint a he ha ↦ ?_) fun _ hs ↦ hs.check
    have hcheck := he.check
    simp only [check, List.append_eq_nil_iff] at hcheck
    exact ty_base (he.child List.mem_cons_self) hcheck.1.2 ha
  · cases h with
    | element | argument => rfl
    | @read base idx pos hint a i ty he ha hi hty =>
      have hcheck := he.check
      simp only [check, List.append_eq_nil_iff] at hcheck
      have hidx : s.Checked s.Known idx :=
        he.child (List.mem_cons_of_mem base (List.mem_singleton_self idx))
      exact hidx.ty_of_refuse hn hcheck.2 hi
    | @stored target idx value pos a i ty hs ha hty hi =>
      obtain ⟨hcheck, -⟩ := List.append_eq_nil_iff.1 hs.check
      obtain ⟨-, hindex⟩ := List.append_eq_nil_iff.1 hcheck
      have hidx := hs.expr hm idx List.mem_cons_self
      exact hidx.ty_of_refuse hn (List.append_eq_nil_iff.1 hindex).2 hi

theorem Issued.wellTyped (hw : ∀ name m, s.symbols.method? name = some m → m.WellFormed)
    (hm : s.method = some m) {i : Instr}
    (h : s.Issued (fun e _ ↦ s.Checked s.Known e) (s.CheckedStmt s.Known) i) :
    i.WellTyped s.symbols := by
  refine ⟨h.consistent hn hw hm, fun x hx ↦ ?_⟩
  cases x with
  | lit | var | param | this | cls => trivial
  | elem a idx ty => exact (h.indexed hx).wellTyped hn hw hm

end Scope

namespace Program

variable {p : Program}

def Known (p : Program) : Prop :=
  ∀ m ∈ p.cls.methods, ∀ e ∈ Stmt.exprsAll m.body, e.Everywhere (p.bodyScope m).Known

/-- The generated code of an accepted program whose expressions have known types is well typed. -/
theorem well_typed (h : p.check = []) (hk : p.Known) (hn : p.symbols.NamesApart) :
    ∀ tm ∈ p.lower.1.methods, ∀ i ∈ tm.code, i.WellTyped p.symbols := by
  refine forall_code h hk ⟨⟨p.cls.name.name, rfl⟩, ?_⟩ ⟨rfl, nofun⟩ fun m hm i hi ↦ ?_
  · exact List.forall_mem_singleton.2 trivial
  · obtain ⟨sig, hsig⟩ := method_bodyScope hm
    exact hi.wellTyped hn (fun _ _ hmethod ↦ wellFormed hmethod) hsig

/-- `int f(int... ys) { return ys.length; }` and
`int m() { int x; while (x < 3) x = this.f(x, 1); return x; }`. -/
theorem well_typed_packed :
    let pos := Position.point 1 1
    let int : TypeExpr := ⟨.int, false, false, pos⟩
    let ints : TypeExpr := ⟨.int, false, true, pos⟩
    let x : Ident := ⟨"x", pos⟩
    let ys : Ident := ⟨"ys", pos⟩
    let test := Expr.binary .less (.ident x) (.int 3 pos) pos
    let call := Expr.call (.this pos) ⟨"f", pos⟩ [.ident x, .int 1 pos] pos
    let f : MethodDecl :=
      { isPublic := true, isStatic := false, ret := int, name := ⟨"f", pos⟩
        params := [⟨ints, ys, pos⟩], body := [.return (some (.length (.ident ys) pos)) pos], pos }
    let m : MethodDecl :=
      { isPublic := true, isStatic := false, ret := int, name := ⟨"m", pos⟩, params := [], pos
        body := [.var ⟨int, x, pos⟩, .while test (.assign x none call pos) pos,
          .return (some (.ident x)) pos] }
    let p : Program := ⟨[], ⟨⟨"A", pos⟩, none, [], [f, m], pos⟩⟩
    p.check = [] ∧ p.Known ∧ p.symbols.NamesApart ∧
      ∀ tm ∈ p.lower.1.methods, ∀ i ∈ tm.code, i.WellTyped p.symbols := by
  intro pos int ints x ys test call f m p
  have h : p.check = [] := by decide +kernel +zetaReduce
  have hn : p.symbols.NamesApart := by
    unfold Symbols.NamesApart
    decide +kernel +zetaReduce
  have hf : (Expr.length (.ident ys) pos).Everywhere (p.bodyScope f).Known :=
    .one ⟨.int, rfl⟩ rfl (.leaf ⟨Ty.arrayOf .int, by decide +kernel +zetaReduce⟩ rfl)
  have hx : (Expr.ident x).Everywhere (p.bodyScope m).Known :=
    .leaf ⟨.int, by decide +kernel +zetaReduce⟩ rfl
  have htest : test.Everywhere (p.bodyScope m).Known :=
    .two ⟨.boolean, rfl⟩ rfl hx (.leaf ⟨.int, rfl⟩ rfl)
  have hcall : call.Everywhere (p.bodyScope m).Known := by
    refine .intro _ ⟨.int, by decide +kernel +zetaReduce⟩ ?_
    exact List.forall_mem_cons.2 ⟨.leaf ⟨.object "A", rfl⟩ rfl,
      forall_mem_two.2 ⟨hx, .leaf ⟨.int, rfl⟩ rfl⟩⟩
  have hk : p.Known := by
    refine forall_mem_two.2 ⟨List.forall_mem_singleton.2 hf, ?_⟩
    exact List.forall_mem_cons.2 ⟨htest, forall_mem_two.2 ⟨hcall, hx⟩⟩
  exact ⟨h, hk, hn, well_typed h hk hn⟩

end Program

end MiniJava

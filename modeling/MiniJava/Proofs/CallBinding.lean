import MiniJava.Proofs.Assembly.Ops
import MiniJava.Proofs.Checking.Rules
import MiniJava.Proofs.Checking.Throughout

namespace MiniJava

open Tac Lower

inductive Tac.CallKind.On (cls method : String) (args : List Operand) : CallKind → Prop
  | static : On cls method args (.static cls method args)
  | virtual (recv : Operand) : recv.ty = .cls cls → On cls method args (.virtual recv method args)

def Signature.SameTypes (m m' : Signature) : Prop :=
  m.params.map (·.symbol.ty) = m'.params.map (·.symbol.ty) ∧ m.ret = m'.ret

namespace Jasmin

def invocations (lines : List (Line Opcode)) : List Opcode :=
  lines.filterMap fun
    | .op (.invoke mode owner method desc) _ => some (.invoke mode owner method desc)
    | _ => none

variable {c : Tac.Class} {m : Tac.Method} {part : List (Line Opcode)}

theorem invocations_append (a b : List (Line Opcode)) :
    invocations (a ++ b) = invocations a ++ invocations b := List.filterMap_append

theorem invocations_load {x : Operand} (h : load m x = .ok part) : invocations part = [] := by
  induction x generalizing part with
  | lit v t =>
    obtain rfl := Except.ok.inj h
    unfold Opcode.constant
    split_ifs <;> rfl
  | var name t | param i name t =>
    obtain ⟨⟨kind, i⟩, -, h⟩ := bind_eq_ok.1 h
    obtain rfl := Except.ok.inj h
    rfl
  | elem array index t iharray ihindex =>
    obtain ⟨a, ha, h⟩ := bind_eq_ok.1 h
    obtain ⟨i, hi, h⟩ := bind_eq_ok.1 h
    obtain rfl := Except.ok.inj h
    rw [invocations_append, invocations_append, iharray ha, ihindex hi]
    rfl
  | this cls =>
    obtain rfl := Except.ok.inj h
    rfl
  | cls name => exact absurd h nofun

theorem invocations_loadAll {xs : List Operand} (h : loadAll m xs = .ok part) :
    invocations part = [] := by
  induction xs generalizing part with
  | nil =>
    obtain rfl := Except.ok.inj h
    rfl
  | cons x xs ih =>
    obtain ⟨first, hfirst, h⟩ := bind_eq_ok.1 h
    obtain ⟨rest, hrest, h⟩ := bind_eq_ok.1 h
    obtain rfl := Except.ok.inj h
    rw [invocations_append, invocations_load hfirst, ih hrest]
    rfl

/-- A call of a method is one invocation. -/
theorem invocations_call {k : Call} {cls method : String} {args : List Operand}
    (hk : k.kind.On cls method args) (h : call c m k = .ok part) :
    ∃ mode, invocations part =
      [.invoke mode (c.classPath cls) method (callDescriptor c cls method args k.ret)] := by
  obtain ⟨kind, ret⟩ := k
  cases hk with
  | static =>
    obtain ⟨values, hvalues, h⟩ := bind_eq_ok.1 h
    obtain rfl := Except.ok.inj h
    rw [invocations_append, invocations_loadAll hvalues]
    exact ⟨.static, rfl⟩
  | virtual recv hty =>
    obtain ⟨cls', hcls, h⟩ := bind_eq_ok.1 h
    rw [hty] at hcls
    obtain rfl := Except.ok.inj hcls
    obtain ⟨receiver, hrecv, h⟩ := bind_eq_ok.1 h
    obtain ⟨values, hvalues, h⟩ := bind_eq_ok.1 h
    obtain rfl := Except.ok.inj h
    rw [invocations_append, invocations_append, invocations_load hrecv,
      invocations_loadAll hvalues]
    exact ⟨.virtual, rfl⟩

theorem invocations_loadPlace {array index : Operand} (h : loadPlace m array index = .ok part) :
    invocations part = [] := by
  obtain ⟨a, ha, h⟩ := bind_eq_ok.1 h
  obtain ⟨i, hi, h⟩ := bind_eq_ok.1 h
  obtain rfl := Except.ok.inj h
  rw [invocations_append, invocations_load ha, invocations_load hi]
  rfl

/-- What becomes of the result of a call takes no further invocation. -/
theorem invocations_instr {i : Instr} {k : Call} (hk : i.call? = some k) {n : Nat}
    (h : (instr c m n i).1 = .ok part) :
    ∃ calls, call c m k = .ok calls ∧ invocations part = invocations calls := by
  cases i with
  | call k' =>
    obtain rfl := Option.some.inj hk
    obtain ⟨calls, hcalls, h⟩ := bind_eq_ok.1 h
    obtain rfl := Except.ok.inj h
    refine ⟨calls, hcalls, ?_⟩
    rw [invocations_append]
    split
    · exact List.append_nil _
    · exact List.append_nil _
  | assign dest t r =>
    cases r with
    | call k' =>
      obtain rfl := Option.some.inj hk
      cases dest with
      | elem array index t' =>
        obtain ⟨place, hplace, heq⟩ := instr_elem h
        rw [heq] at h
        obtain ⟨calls, hcalls, h⟩ := bind_eq_ok.1 h
        obtain rfl := Except.ok.inj h
        refine ⟨calls, hcalls, ?_⟩
        rw [invocations_append, invocations_append, invocations_loadPlace hplace]
        exact List.append_nil _
      | lit | var | param | this | cls =>
        obtain ⟨calls, hcalls, h⟩ := bind_eq_ok.1 h
        obtain ⟨line, hline, h⟩ := bind_eq_ok.1 h
        obtain rfl := Except.ok.inj h
        obtain ⟨kind, i, rfl⟩ := store_eq_ok hline
        refine ⟨calls, hcalls, ?_⟩
        rw [invocations_append]
        exact List.append_nil _
    | value | arith | less | not | field => exact absurd hk nofun
  | putField | branch | goto | label | «return» | invalid => exact absurd hk nofun

end Jasmin

def Tac.Class.signatureDescriptor (c : Tac.Class) (m : Signature) : Jasmin.Descriptor :=
  c.descriptor (m.params.map fun p ↦ .ofTy p.symbol.ty) (.ofTy m.ret)

theorem Signature.SameTypes.descriptor_eq {m m' : Signature} (h : m.SameTypes m') (c : Tac.Class) :
    c.signatureDescriptor m = c.signatureDescriptor m' := by
  have hparams := congrArg (List.map ValType.ofTy) h.1
  simp only [List.map_map, Function.comp_def] at hparams
  rw [Class.signatureDescriptor, hparams, h.2, Class.signatureDescriptor]

theorem MethodDecl.methodDescriptor_withBody (m : MethodDecl) (c : Tac.Class) (cls : String)
    (body : List Instr) :
    c.methodDescriptor (m.withBody cls body) = c.signatureDescriptor m.signature := by
  simp only [Class.methodDescriptor, withBody, List.map_map, Class.signatureDescriptor, signature]
  rfl

/-- Generated code has the methods of the source, in the same order. -/
theorem Symbols.find?_lowerMethods (t : Symbols) (c : Tac.Class) (n : Numbering)
    (ms : List MethodDecl) (name : String) :
    ((t.lowerMethods n ms).1.find? fun tm ↦ !tm.isConstructor && tm.name == name).map
        c.methodDescriptor =
      ((ms.map MethodDecl.signature).find? (·.name == name)).map c.signatureDescriptor := by
  induction ms generalizing n with
  | nil => rfl
  | cons m ms ih =>
    have hhead := m.methodDescriptor_withBody c t.className (m.lower t n).code
    let tm := m.withBody t.className (m.lower t n).code
    have htest : (!tm.isConstructor && tm.name == name) = (m.signature.name == name) := rfl
    simp only [lowerMethods, List.map_cons, List.find?_cons, tm, htest]
    cases m.signature.name == name with
    | true => exact congrArg some hhead
    | false => exact ih _

namespace Scope

variable {s : Scope} {recv : Expr} {method : Ident} {args : List Expr} {pos : Position}
  {hint : Option ValType} {m : Signature}

/-- A checked call on an object of a class has a receiver that is known to be one. -/
theorem receiverClass_of_value (hc : s.checkCall recv method args pos = [])
    (hnamed : s.className? recv = none) (hknown : s.typing recv ≠ .unknown) {r : Operand}
    (hr : s.Gives recv none r) {cls : String} (hty : r.ty = .cls cls) :
    s.receiverClass recv = .ok cls := by
  obtain ⟨n, rfl⟩ := hr
  have howner : Jasmin.owner? (s.lower recv none n).value.ty = some cls := congrArg _ hty
  obtain ⟨ty, ht, hv⟩ := known_of_owner (fits_lower recv) hknown howner
  have hname : ty.name = cls := by
    rcases hv with hv | hv
    · exact absurd (hv.symm.trans hty) nofun
    · exact ValType.cls.inj (hv.symm.trans hty)
  exact hname ▸ receiverClass_of_check hnamed ht hc

/-- A checked call on the class itself has one operand for each parameter of the method that its
name stands for. -/
theorem length_of_call (hc : s.checkCall recv method args pos = [])
    (hr : s.Resolved (.call recv method args pos)) {k : Call}
    (hk : s.GivesCall recv method args hint k) {name : String} {vs : List Operand}
    (hon : k.kind.On s.symbols.className name vs) (hm : s.symbols.method? name = some m) :
    vs.length = m.params.length := by
  obtain ⟨-, n, hkind⟩ := hk.cases
  have hlower : s.receiverClass recv = .ok s.symbols.className ∧ name = method.name ∧
      vs = (s.lowerArgs (s.target? recv method.name) args (args.map s.lower) n).value := by
    rcases hkind with ⟨cls, hnamed, hkind⟩ | ⟨hnamed, r, hgives, hkind⟩
    · rw [hkind] at hon
      cases hon
      exact ⟨by simp [receiverClass, dispatch, hnamed], rfl, rfl⟩
    · rw [hkind] at hon
      cases hon with
      | virtual r hty =>
        have hknown := hr (by simp [hm])
        exact ⟨receiverClass_of_value hc hnamed hknown hgives hty, rfl, rfl⟩
  obtain ⟨hclass, rfl, rfl⟩ := hlower
  have htarget : s.target? recv method.name = some m := by simp [target?, hclass, hm]
  have hargs : s.checkArguments m args pos = [] :=
    checkArguments_eq_nil_iff.2 ((checkCall_eq_nil_iff.1 hc).arguments m htarget)
  rw [htarget]
  exact length_lowerArgs hargs (List.length_map _)

end Scope

namespace Program

variable {p : Program}

theorem methodDescriptor_of_first {name : String} {first : Signature}
    (h : p.symbols.methods.find? (·.name == name) = some first) :
    (p.lower.1.method? name).map p.lower.1.methodDescriptor =
      some (p.lower.1.signatureDescriptor first) := by
  have hmethods := p.symbols.find?_lowerMethods p.lower.1 {} p.cls.methods name
  have hsignatures : p.cls.methods.map MethodDecl.signature = p.symbols.methods := rfl
  rw [hsignatures, h] at hmethods
  exact hmethods

/-- Generated code calls the first method of a name, while the name stands for the last. -/
theorem callDescriptor_of_first {name : String} {first : Signature}
    (h : p.symbols.methods.find? (·.name == name) = some first) (args : List Operand)
    (ret : ValType) :
    Jasmin.callDescriptor p.lower.1 p.cls.name.name name args ret =
      p.lower.1.signatureDescriptor first := by
  obtain ⟨d, hd, hdesc⟩ := Option.map_eq_some_iff.1 (methodDescriptor_of_first h)
  have hclass : p.lower.1.name = p.cls.name.name := rfl
  simp only [Jasmin.callDescriptor, hclass, if_true, hd, hdesc]

theorem exists_first {t : Symbols} {name : String} {sig : Signature}
    (h : t.method? name = some sig) :
    ∃ first, t.methods.find? (·.name == name) = some first := by
  rw [Symbols.method?, List.findRev?_eq_findRev?TR, List.findRev?TR] at h
  have hmem := List.mem_reverse.1 (List.mem_of_find?_eq_some h)
  have hname := List.find?_some h
  exact Option.isSome_iff_exists.1 (List.find?_isSome.2 ⟨sig, hmem, hname⟩)

def ResolvedBodies (p : Program) : Prop :=
  ∀ m ∈ p.cls.methods, ∀ e ∈ Stmt.exprsAll m.body, e.Everywhere (p.bodyScope m).Resolved

theorem length_of_issued {m : MethodDecl} (hm : m ∈ p.cls.methods) {i : Instr}
    (hi : (p.bodyScope m).Issued
      (fun e _ ↦ (p.bodyScope m).Checked (p.bodyScope m).Resolved e)
      ((p.bodyScope m).CheckedStmt (p.bodyScope m).Resolved) i) {k : Call}
    (hk : i.call? = some k) {name : String} {args : List Operand} {sig : Signature}
    (hon : k.kind.On p.cls.name.name name args) (hsig : p.symbols.method? name = some sig) :
    args.length = sig.params.length := by
  obtain ⟨body, hbody⟩ := method_bodyScope hm
  cases hi.makes hk with
  | method he hgives =>
    have hchecked := Scope.Checked.of_evaluates hbody he
    have hcall := (List.append_eq_nil_iff.1 hchecked.check).2
    exact Scope.length_of_call hcall hchecked.everywhere.here hgives hon hsig
  | length | object | construct | newArray | allocate => exact absurd hon nofun

/-- Each call of a method on the class itself is one invocation, with the descriptor of a signature
and as many operands as that has parameters. -/
def BindsCalls (p : Program) (name : String) (sig : Signature) : Prop :=
  ∀ tm ∈ p.lower.1.methods, ∀ i ∈ tm.code, ∀ k, i.call? = some k →
    ∀ args, k.kind.On p.cls.name.name name args →
      ∀ n lines, (Jasmin.instr p.lower.1 tm n i).1 = .ok lines →
        ∃ mode desc,
          Jasmin.invocations lines = [.invoke mode p.cls.name.name name desc] ∧
            desc.params.length = args.length ∧ desc = p.lower.1.signatureDescriptor sig

/-- Calls bind to what their name stands for, as long as the first method of that name has the same
types. -/
theorem calls_bind (h : p.check = []) (hr : p.ResolvedBodies) {name : String} {sig : Signature}
    (hsig : p.symbols.method? name = some sig)
    (hsame : ∀ first, p.symbols.methods.find? (·.name == name) = some first →
      first.SameTypes sig) : p.BindsCalls name sig := by
  intro tm htm i hi k hk args hon n lines hlines
  have hlength : args.length = sig.params.length := by
    have hall := forall_code (A := fun i ↦ ∀ k, i.call? = some k →
      k.kind.On p.cls.name.name name args → args.length = sig.params.length) h hr ?_ ?_ ?_
    · exact hall tm htm i hi k hk hon
    · rintro k ⟨⟩ hon
      exact absurd hon nofun
    · nofun
    · exact fun m hm i hi k hk hon ↦ length_of_issued hm hi hk hon hsig
  obtain ⟨first, hfirst⟩ := exists_first hsig
  obtain ⟨part, hpart, hinvocations⟩ := Jasmin.invocations_instr hk hlines
  obtain ⟨mode, hmode⟩ := Jasmin.invocations_call hon hpart
  have hclass : p.lower.1.classPath p.cls.name.name = p.cls.name.name := if_pos rfl
  rw [hclass, callDescriptor_of_first hfirst, (hsame first hfirst).descriptor_eq] at hmode
  refine ⟨mode, p.lower.1.signatureDescriptor sig, hinvocations.trans hmode, ?_, rfl⟩
  simp [Class.signatureDescriptor, Class.descriptor, hlength]

/-- `int f(int x) { return 1; }`, `int f(int y) { return y; }`, `int m() { return this.f(2); }`. -/
theorem calls_bind_repeated :
    let pos := Position.point 1 1
    let int : TypeExpr := ⟨.int, false, false, pos⟩
    let y : Ident := ⟨"y", pos⟩
    let method (name : String) (params : List ParamDecl) (value : Expr) : MethodDecl :=
      { isPublic := true, isStatic := false, ret := int, name := ⟨name, pos⟩, params
        body := [.return (some value) pos], pos }
    let f := method "f" [⟨int, y, pos⟩] (.ident y)
    let p : Program := ⟨[], ⟨⟨"A", pos⟩, none, [],
      [method "f" [⟨int, ⟨"x", pos⟩, pos⟩] (.int 1 pos), f,
        method "m" [] (.call (.this pos) ⟨"f", pos⟩ [.int 2 pos] pos)], pos⟩⟩
    let call : Call := ⟨.virtual (.this "A") "f" [.int 2], .int⟩
    p.check = [] ∧ p.ResolvedBodies ∧ p.symbols.method? "f" = some f.signature ∧
      (∃ tm ∈ p.lower.1.methods, .assign (.var "tmp0" .int) .int (.call call) ∈ tm.code) ∧
      p.BindsCalls "f" f.signature := by
  intro pos int y method f p call
  have h : p.check = [] := by decide +kernel +zetaReduce
  have hf : p.symbols.method? "f" = some f.signature := by decide +kernel +zetaReduce
  have hcode : ∃ tm ∈ p.lower.1.methods,
      .assign (.var "tmp0" .int) .int (.call call) ∈ tm.code := by decide +kernel +zetaReduce
  have hr : p.ResolvedBodies := by
    refine List.forall_mem_cons.2 ⟨List.forall_mem_singleton.2 (.leaf trivial rfl),
      forall_mem_two.2 ⟨List.forall_mem_singleton.2 (.leaf trivial rfl),
        List.forall_mem_singleton.2 ?_⟩⟩
    exact .two (fun _ ↦ nofun) rfl (.leaf trivial rfl) (.leaf trivial rfl)
  refine ⟨h, hr, hf, hcode, calls_bind h hr hf ?_⟩
  rintro first hfirst
  obtain rfl := Option.some.inj hfirst
  exact ⟨rfl, rfl⟩

/-- `int f() { return 1; }`, `int f(int x) { return x; }` and `int m() { return this.f(2); }`, where
the call is checked against the second method and invokes the first. -/
theorem call_misbinds_hidden :
    let pos := Position.point 1 1
    let int : TypeExpr := ⟨.int, false, false, pos⟩
    let x : Ident := ⟨"x", pos⟩
    let method (name : String) (params : List ParamDecl) (value : Expr) : MethodDecl :=
      { isPublic := true, isStatic := false, ret := int, name := ⟨name, pos⟩, params
        body := [.return (some value) pos], pos }
    let f := method "f" [⟨int, x, pos⟩] (.ident x)
    let p : Program := ⟨[], ⟨⟨"A", pos⟩, none, [],
      [method "f" [] (.int 1 pos), f,
        method "m" [] (.call (.this pos) ⟨"f", pos⟩ [.int 2 pos] pos)], pos⟩⟩
    p.check = [] ∧ p.ResolvedBodies ∧ p.symbols.method? "f" = some f.signature ∧
      ¬ p.BindsCalls "f" f.signature := by
  intro pos int x method f p
  let call : Call := ⟨.virtual (.this "A") "f" [.int 2], .int⟩
  have hr : p.ResolvedBodies := by
    refine List.forall_mem_cons.2 ⟨List.forall_mem_singleton.2 (.leaf trivial rfl),
      forall_mem_two.2 ⟨List.forall_mem_singleton.2 (.leaf trivial rfl),
        List.forall_mem_singleton.2 ?_⟩⟩
    exact .two (fun _ ↦ nofun) rfl (.leaf trivial rfl) (.leaf trivial rfl)
  refine ⟨by decide +kernel +zetaReduce, hr, by decide +kernel +zetaReduce, fun hbinds ↦ ?_⟩
  have hcode : ∃ tm ∈ p.lower.1.methods,
      .assign (.var "tmp0" .int) .int (.call call) ∈ tm.code ∧
        Jasmin.invocations <$> (Jasmin.instr p.lower.1 tm 0
          (.assign (.var "tmp0" .int) .int (.call call))).1 =
            .ok [.invoke .virtual "A" "f" ⟨[], .int⟩] := by decide +kernel +zetaReduce
  obtain ⟨tm, htm, hi, hinvocations⟩ := hcode
  cases hlines : (Jasmin.instr p.lower.1 tm 0 (.assign (.var "tmp0" .int) .int (.call call))).1 with
  | error f => exact absurd (hlines ▸ hinvocations) nofun
  | ok lines =>
    obtain ⟨mode, desc, hone, hlength, -⟩ :=
      hbinds tm htm _ hi call rfl [.int 2] (.virtual _ rfl) 0 lines hlines
    rw [hlines] at hinvocations
    have hdesc := hone.symm.trans (Except.ok.inj hinvocations)
    simp only [List.cons.injEq, Jasmin.Opcode.invoke.injEq] at hdesc
    rw [hdesc.1.2.2.2] at hlength
    exact absurd hlength nofun

end Program

end MiniJava

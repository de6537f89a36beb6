import MiniJava.Proofs.Assembly.Loads

namespace MiniJava

open Tac Jasmin

def Tac.CallKind.args : CallKind → List Operand
  | .static _ _ args | .virtual _ _ args => args
  | .special _ | .new _ | .newArray _ | .length _ => []

def Tac.Class.Suits (c : Tac.Class) (owner method : String) (args : List Operand) (ret : ValType) :
    Prop :=
  owner = c.name → ∀ d, c.method? method = some d →
    args.length = d.params.length ∧ (ret = .void ↔ d.ret = .void)

def Tac.Call.Shaped (k : Call) : Prop :=
  match k.kind with
  | .static .. | .virtual .. => True
  | .special _ => k.ret = .void
  | .new _ | .newArray _ | .length _ => k.ret ≠ .void

/-- Where a call binds to a method that the class declares, it suits it. -/
def Tac.Call.Binds (c : Tac.Class) (k : Call) : Prop :=
  match k.kind with
  | .static cls method args => c.Suits cls method args k.ret
  | .virtual recv method args => ∀ cls, owner? recv.ty = some cls → c.Suits cls method args k.ret
  | .special _ | .new _ | .newArray _ | .length _ => True

def Tac.Instr.call? : Instr → Option Call
  | .assign _ _ (.call k) | .call k => some k
  | _ => none

namespace Jasmin

variable {V W : Type} {J : Interp V W} {lines part : List (Line Opcode)} {L : Locals V}
  {pc : Nat} {S : List V} {ρ : Store V} {this : V} {c : Tac.Class} {m : Tac.Method}

theorem jtype_eq_void_iff (t : ValType) : c.jtype t = .void ↔ t = .void := by
  cases t <;> simp [Class.jtype]

theorem callDescriptor_of_suits {owner method : String} {args : List Operand} {ret : ValType}
    (h : c.Suits owner method args ret) :
    (callDescriptor c owner method args ret).params.length = args.length ∧
      ((callDescriptor c owner method args ret).ret = .void ↔ ret = .void) := by
  unfold callDescriptor
  split
  · next d hd =>
    obtain ⟨howner, hd⟩ : owner = c.name ∧ c.method? method = some d := by
      by_cases howner : owner = c.name
      · exact ⟨howner, by rwa [if_pos howner] at hd⟩
      · exact absurd (if_neg howner ▸ hd) nofun
    obtain ⟨hlen, hret⟩ := h howner d hd
    simp only [Class.methodDescriptor, Class.descriptor, List.length_map, jtype_eq_void_iff]
    exact ⟨hlen.symm, hret.symm⟩
  · simp only [Class.descriptor, List.length_map, jtype_eq_void_iff]
    exact ⟨trivial, trivial⟩

theorem owner?_of_owner {t : ValType} {cls : String} (h : owner m t = .ok cls) :
    owner? t = some cls := by
  cases t with
  | cls name => exact congrArg some (Except.ok.inj h)
  | string => exact congrArg some (Except.ok.inj h)
  | int | bool | void | array e => exact absurd h nofun

theorem ownerName_of_owner {t : ValType} {cls : String} (h : owner m t = .ok cls) :
    ownerName t = cls := by
  rw [ownerName, owner?_of_owner h, Option.getD_some]

/-- Constructor runs differ in the class that the constructor belongs to. -/
theorem eval_special {recv : Operand} {path : String} {ret : ValType}
    (h : constructorOwner c m recv = .ok path) :
    (Call.mk (.special recv) ret).eval (J.tac c this) ρ =
      recv.eval (J.tac c this) ρ >>= fun r ↦ J.invoke .special path "<init>" [r] := by
  have hpath (x : Operand) (hx : c.classPath <$> owner m x.ty = .ok path) :
      c.classPath (ownerName x.ty) = path := by
    cases ho : owner m x.ty with
    | error f => exact absurd (ho ▸ hx) nofun
    | ok cls =>
      rw [ho] at hx
      rw [ownerName_of_owner ho]
      exact Except.ok.inj hx
  cases recv with
  | this cls =>
    obtain rfl := Except.ok.inj h
    rfl
  | lit v t => rw [← hpath _ h]; rfl
  | var x t => rw [← hpath _ h]; rfl
  | param i x t => rw [← hpath _ h]; rfl
  | elem array index t => rw [← hpath _ h]; rfl
  | cls name => rw [← hpath _ h]; rfl

theorem length_of_yields_evalAll {I : Tac.Interp V W} {xs : List Operand} {vs : List V}
    (h : (Operand.evalAll I ρ xs).Yields vs) : vs.length = xs.length := by
  induction xs generalizing vs with
  | nil =>
    obtain rfl := Effect.Yields.of_pure h
    rfl
  | cons x xs ih =>
    obtain ⟨v, -, h⟩ := h.of_bind
    obtain ⟨us, hus, h⟩ := h.of_bind
    obtain rfl := h.of_pure
    rw [List.length_cons, List.length_cons, ih hus]

theorem exec_invoke (mode : Invocation) (cls method : String) {desc : Descriptor} {vs : List V}
    {ret : ValType} (hlen : desc.arity mode = vs.length) (hret : desc.ret = .void ↔ ret = .void)
    (w : W) :
    (Opcode.invoke mode cls method desc).exec J L w (vs.reverse ++ S) =
      .after (J.invoke mode cls method vs) w fun v ↦
        .next (if ret = .void then S else v :: S) L := by
  have hfew : ¬ (vs.reverse ++ S).length < vs.length := by simp
  have htake : (vs.reverse ++ S).take vs.length = vs.reverse := by
    rw [← List.length_reverse, List.take_left]
  have hdrop : (vs.reverse ++ S).drop vs.length = S := by
    rw [← List.length_reverse, List.drop_left]
  simp only [Opcode.exec, hlen, if_neg hfew, htake, hdrop, List.reverse_reverse, hret]

section

variable (hh : Holding m ρ L)

include hh

theorem does_call {k : Call} (h : call c m k = .ok part) (hat : At lines pc part)
    (hk : k.Shaped) (hb : k.Binds c)
    (hthis : ∀ cls, .this cls ∈ k.kind.operands.flatMap Operand.parts → L 0 = this) :
    Does J lines L pc part S (k.eval (J.tac c this) ρ)
      fun v ↦ if k.ret = .void then S else v :: S := by
  obtain ⟨kind, ret⟩ := k
  have hone {x : Operand} (hx : kind.operands = [x]) (cls : String) (hc : .this cls ∈ x.parts) :
      L 0 = this := hthis cls (by simpa [hx] using hc)
  cases kind with
  | static cls method args =>
    obtain ⟨values, hv, h⟩ := bind_eq_ok.1 h
    obtain rfl := Except.ok.inj h
    obtain ⟨hlen, hret⟩ := callDescriptor_of_suits hb
    refine (does_loadAll hh c hv hat.left hthis).bind_of_yields fun vs hvs ↦ ?_
    refine .op hat.right (exec_invoke _ _ _ ?_ hret)
    rw [length_of_yields_evalAll hvs, ← hlen]
    rfl
  | virtual recv method args =>
    obtain ⟨cls, hcls, h⟩ := bind_eq_ok.1 h
    obtain ⟨receiver, hr, h⟩ := bind_eq_ok.1 h
    obtain ⟨values, hv, h⟩ := bind_eq_ok.1 h
    obtain rfl := Except.ok.inj h
    obtain ⟨hlen, hret⟩ := callDescriptor_of_suits (hb cls (owner?_of_owner hcls))
    obtain rfl := ownerName_of_owner hcls
    rw [List.append_assoc] at hat ⊢
    refine (does_load hh c hr hat.left fun cls hc ↦ hthis cls ?_).bind fun r ↦ ?_
    · exact List.mem_append_left _ hc
    refine (does_loadAll hh c hv hat.right.left fun cls hc ↦ hthis cls ?_).bind_of_yields
      fun vs hvs ↦ ?_
    · exact List.mem_append_right _ hc
    have hstack : vs.reverse ++ r :: S = (r :: vs).reverse ++ S := by simp
    rw [hstack]
    refine .op hat.right.right (exec_invoke _ _ _ ?_ hret)
    rw [List.length_cons, length_of_yields_evalAll hvs, ← hlen]
    rfl
  | special recv =>
    obtain ⟨path, hp, h⟩ := bind_eq_ok.1 h
    obtain ⟨receiver, hr, h⟩ := bind_eq_ok.1 h
    obtain rfl := Except.ok.inj h
    have hvoid : ret = .void := hk
    rw [eval_special hp]
    refine (does_load hh c hr hat.left (hone rfl)).bind fun r ↦ ?_
    have hlen : Descriptor.arity ⟨[], .void⟩ .special = [r].length := rfl
    exact .op hat.right (exec_invoke _ _ _ hlen (by simp [hvoid]))
  | new cls =>
    obtain rfl := Except.ok.inj h
    exact .op hat fun w ↦ by
      simp only [if_neg (show ret ≠ .void from hk)]
      rfl
  | newArray size =>
    obtain ⟨n, hn, h⟩ := bind_eq_ok.1 h
    obtain rfl := Except.ok.inj h
    refine (does_load hh c hn hat.left (hone rfl)).bind fun v ↦ .op hat.right fun w ↦ ?_
    simp only [if_neg (show ret ≠ .void from hk)]
    rfl
  | length array =>
    obtain ⟨a, ha, h⟩ := bind_eq_ok.1 h
    obtain rfl := Except.ok.inj h
    refine (does_load hh c ha hat.left (hone rfl)).bind fun v ↦ .op hat.right fun w ↦ ?_
    simp only [if_neg (show ret ≠ .void from hk)]
    rfl

end

end Jasmin

end MiniJava

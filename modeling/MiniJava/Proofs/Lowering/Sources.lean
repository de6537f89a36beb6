import MiniJava.Proofs.Assembly.Calls
import MiniJava.Proofs.Lowering.Values

namespace MiniJava

open Tac Lower

def Tac.Operand.Shallow : Operand → Prop
  | .elem array index _ => array.IsAtom ∧ index.IsAtom
  | .lit .. | .var .. | .param .. | .this _ | .cls _ => True

theorem Tac.Operand.IsAtom.shallow {x : Operand} (h : x.IsAtom) : x.Shallow := by
  cases x with
  | elem => exact h.elim
  | lit | var | param | this | cls => trivial

theorem Tac.Operand.Shallow.eq_of_mem_parts {x a i : Operand} {ty : ValType} (h : x.Shallow)
    (hx : .elem a i ty ∈ x.parts) : x = .elem a i ty := by
  have hatom {y : Operand} (hy : y.IsAtom) : .elem a i ty ∉ y.parts := by
    rw [hy.parts_eq, List.mem_singleton]
    rintro rfl
    exact hy
  cases x with
  | elem array index t =>
    rcases List.mem_cons.1 hx with hx | hx
    · exact hx.symm
    · rcases List.mem_append.1 hx with hx | hx
      · exact absurd hx (hatom h.1)
      · exact absurd hx (hatom h.2)
  | lit | var | param | this | cls => exact absurd hx (hatom trivial)

namespace Scope

variable {s : Scope} {hint : Option ValType} {E : Expr → Option ValType → Prop} {S : Stmt → Prop}
  {i : Instr}

def Part (s : Scope) (E : Expr → Option ValType → Prop) (S : Stmt → Prop) (e : Expr)
    (hint : Option ValType) : Prop :=
  (∃ e' hint', E e' hint' ∧ (e, hint) ∈ s.parts e' hint') ∨
    ∃ stmt, S stmt ∧ (e, hint) ∈ s.stmtParts stmt

/-- Operands that are no elements of arrays, by where they come from. -/
inductive Source (s : Scope) (E : Expr → Option ValType → Prop) (S : Stmt → Prop) : Operand → Prop
  | literal (v : Int32) (ty : ValType) : Source s E S (.lit v ty)
  | made (x : String) (ty : ValType) : Source s E S (.var x ty)
  | value {e : Expr} {hint : Option ValType} {x : Operand} : s.Part E S e hint →
      s.Gives e hint x → Source s E S x
  | stored {name : String} {x : Operand} : s.storage? name = some x → Source s E S x

theorem isAtom_of_storage {name : String} {x : Operand} (h : s.storage? name = some x) :
    x.IsAtom := by
  obtain ⟨i, p, -, rfl⟩ | ⟨v, -, rfl⟩ := storage_cases h
  · trivial
  · trivial

theorem Source.isAtom {x : Operand} (h : s.Source E S x) : x.IsAtom := by
  cases h with
  | literal | made => trivial
  | value _ hv => exact hv.isAtom
  | stored h => exact isAtom_of_storage h

theorem StoreArray.source {target : Ident} {value : Expr} {a : Operand}
    (h : s.StoreArray target value a) : s.Source E S a := by
  rcases h with h | ⟨ty, x, -, rfl⟩
  · exact .stored h
  · exact .made x ty

theorem GivesCall.source {recv : Expr} {method : Ident} {args : List Expr} {pos : Position}
    {k : Call} (h : s.GivesCall recv method args hint k)
    (hp : ∀ p ∈ s.parts (.call recv method args pos) hint, s.Part E S p.1 p.2) :
    ∀ x ∈ k.kind.operands, s.Source E S x := by
  obtain ⟨hrecv, hargs⟩ := List.forall_mem_append.1 hp
  have hvalues (n : Numbering) : ∀ x ∈ (s.lowerArgs (s.target? recv method.name) args
      (args.map s.lower) n).value, s.Source E S x := by
    intro x hx
    rcases gives_lowerArgs _ args n x hx with ⟨p, hmem, hv⟩ | ⟨y, ty, rfl⟩
    · exact .value (hargs p hmem) hv
    · exact .made y ty
  obtain ⟨-, n, ⟨cls, -, hk⟩ | ⟨hnamed, r, hr, hk⟩⟩ := h.cases
  · rw [hk]
    exact hvalues n
  · rw [hk]
    exact List.forall_mem_cons.2 ⟨.value (hrecv (recv, none) (by simp [hnamed])) hr, hvalues n⟩

theorem GivesCall.isAtom {recv : Expr} {method : Ident} {args : List Expr} {k : Call}
    (h : s.GivesCall recv method args hint k) : ∀ x ∈ k.kind.operands, x.IsAtom := by
  have hvalues (n : Numbering) : ∀ x ∈ (s.lowerArgs (s.target? recv method.name) args
      (args.map s.lower) n).value, x.IsAtom := by
    intro x hx
    rcases gives_lowerArgs _ args n x hx with ⟨p, -, hv⟩ | ⟨y, ty, rfl⟩
    · exact hv.isAtom
    · trivial
  obtain ⟨-, n, ⟨cls, -, hk⟩ | ⟨-, r, hr, hk⟩⟩ := h.cases
  · rw [hk]
    exact hvalues n
  · rw [hk]
    exact List.forall_mem_cons.2 ⟨hr.isAtom, hvalues n⟩

theorem mem_stmtParts_of_cond? {stmt : Stmt} {cond : Expr} (h : stmt.cond? = some cond) :
    (cond, some .bool) ∈ s.stmtParts stmt := by
  cases stmt with
  | ifThen | ifElse | «while» =>
    obtain rfl := Option.some.inj h
    exact List.mem_singleton_self _
  | var | block | expr | assign | «return» => exact absurd h nofun

theorem part_of_evaluates {recv : Expr} {method : Ident} {args : List Expr} {pos : Position}
    (h : Evaluates E S (.call recv method args pos)) {p : Expr × Option ValType}
    (hp : p ∈ s.argParts (s.target? recv method.name) args) : s.Part E S p.1 p.2 := by
  rcases h with ⟨hint, he⟩ | ⟨e, pos', hs, hcall⟩
  · exact .inl ⟨_, hint, he, List.mem_append_right _ hp⟩
  · refine .inr ⟨_, hs, ?_⟩
    simp only [stmtParts, hcall]
    exact List.mem_append_right _ hp

theorem targetTy_of_storage {name : String} {indexed : Bool} {value : Expr} {x : Operand}
    (h : s.storage? name = some x) : s.targetTy? name indexed value = some x.ty := by
  simp [targetTy?, h]

theorem targetTy_of_field {name : String} {indexed : Bool} {value : Expr} {ty : ValType}
    (h : s.fieldTy? name indexed value = some ty) : s.targetTy? name indexed value = some ty := by
  have hno : s.storage? name = none := by
    unfold fieldTy? at h
    unfold storage?
    cases hb : s.binding name with
    | param | «local» | cls | undeclared => simp [hb] at h
    | field | inherited => rfl
  simp [targetTy?, hno, h]

theorem StoreArray.targetTy {target : Ident} {value : Expr} {a : Operand}
    (h : s.StoreArray target value a) : s.targetTy? target.name true value = some a.ty := by
  rcases h with h | ⟨ty, x, h, rfl⟩
  · exact targetTy_of_storage h
  · exact targetTy_of_field h

def Placed (s : Scope) (E : Expr → Option ValType → Prop) (S : Stmt → Prop) (x : Operand) : Prop :=
  s.Source E S x ∨ ∃ a i ty, x = .elem a i ty ∧ s.Source E S a ∧ s.Source E S i

theorem Placed.shallow {x : Operand} (h : s.Placed E S x) : x.Shallow := by
  rcases h with h | ⟨a, i, ty, rfl, ha, hi⟩
  · exact h.isAtom.shallow
  · exact ⟨ha.isAtom, hi.isAtom⟩

theorem Issued.placed (h : s.Issued E S i) : ∀ x ∈ i.operands, s.Placed E S x := by
  have hlit (v : Int32) (ty : ValType) : s.Placed E S (.lit v ty) := .inl (.literal v ty)
  have hvar (x : String) (ty : ValType) : s.Placed E S (.var x ty) := .inl (.made x ty)
  have hpart {e' e : Expr} {hint' hint : Option ValType} {x : Operand} (he : E e' hint')
      (hmem : (e, hint) ∈ s.parts e' hint') (hx : s.Gives e hint x) : s.Source E S x :=
    .value (.inl ⟨e', hint', he, hmem⟩) hx
  have hstmt {stmt : Stmt} {e : Expr} {hint : Option ValType} {x : Operand} (hs : S stmt)
      (hmem : (e, hint) ∈ s.stmtParts stmt) (hx : s.Gives e hint x) : s.Source E S x :=
    .value (.inr ⟨stmt, hs, hmem⟩) hx
  have hsecond {a b : Expr × Option ValType} : b ∈ [a, b] :=
    List.mem_cons_of_mem a (List.mem_singleton_self b)
  cases h with
  | read x | object x | construct x => exact List.forall_mem_singleton.2 (hvar x _)
  | skip x | allocate x => exact forall_mem_two.2 ⟨hvar x _, hlit ..⟩
  | packed x y ty => exact forall_mem_two.2 ⟨hvar x ty, hvar y ty⟩
  | arith x he ha hb | less x he ha hb =>
    exact List.forall_mem_cons.2 ⟨hvar x _, forall_mem_two.2
      ⟨.inl (hpart he List.mem_cons_self ha), .inl (hpart he hsecond hb)⟩⟩
  | compare l he ha hb =>
    exact forall_mem_two.2
      ⟨.inl (hpart he List.mem_cons_self ha), .inl (hpart he hsecond hb)⟩
  | and l he ha => exact List.forall_mem_singleton.2 (.inl (hpart he List.mem_cons_self ha))
  | test l hs hc ha =>
    exact List.forall_mem_singleton.2 (.inl (hstmt hs (mem_stmtParts_of_cond? hc) ha))
  | last x he hb => exact forall_mem_two.2 ⟨hvar x _, .inl (hpart he hsecond hb)⟩
  | not x he ha | length x he ha | newArray x he ha =>
    exact forall_mem_two.2 ⟨hvar x _, .inl (hpart he List.mem_cons_self ha)⟩
  | index x he ha hi _ =>
    exact forall_mem_two.2 ⟨hvar x _, .inr ⟨_, _, _, rfl, hpart he List.mem_cons_self ha,
      hpart he hsecond hi⟩⟩
  | element x i he hmem hty hv =>
    subst hty
    exact forall_mem_two.2 ⟨.inr ⟨_, _, _, rfl, .made x _, .literal ..⟩,
      .inl (hpart he (List.mem_map_of_mem hmem) hv)⟩
  | @argument recv method args pos p e v x i he hp hmem hv =>
    have hmem' : (e, some p.element) ∈ s.argParts (s.target? recv method.name) args := by
      simp only [argParts, hp]
      exact List.mem_append_right _ (List.mem_map_of_mem hmem)
    exact forall_mem_two.2 ⟨.inr ⟨_, _, _, rfl, .made x _, .literal ..⟩,
      .inl (.value (part_of_evaluates he hmem') hv)⟩
  | call x he hk =>
    have hsource : ∀ y ∈ _, s.Source E S y := hk.source fun p hp ↦ .inl ⟨_, _, he, hp⟩
    exact List.forall_mem_cons.2 ⟨hvar x _, fun y hy ↦ .inl (hsource y hy)⟩
  | @effect e recv method args pos pos' k hs hcall hk =>
    have hparts : s.stmtParts (.expr e pos) =
        s.parts (.call recv method args pos') (some .void) := by simp only [stmtParts, hcall]
    have hsource : ∀ y ∈ _, s.Source E S y := hk.source fun p hp ↦ .inr ⟨_, hs, hparts ▸ hp⟩
    exact fun y hy ↦ .inl (hsource y hy)
  | undeclared | unknownClass | unassignable | goto | label | returnNone =>
    exact List.forall_mem_nil _
  | store hs hdest hv =>
    refine forall_mem_two.2 ⟨.inl (.stored hdest), .inl (hstmt hs ?_ hv)⟩
    simp [stmtParts, targetTy_of_storage hdest]
  | put hs hty hv =>
    refine List.forall_mem_singleton.2 (.inl (hstmt hs ?_ hv))
    simp [stmtParts, targetTy_of_field hty]
  | returnSome hs hv =>
    exact List.forall_mem_singleton.2 (.inl (hstmt hs (List.mem_singleton_self _) hv))
  | storeAt hs ha hty hi hv =>
    subst hty
    refine forall_mem_two.2 ⟨.inr ⟨_, _, _, rfl, ha.source, hstmt hs ?_ hi⟩, .inl (hstmt hs ?_ hv)⟩
    · simp [stmtParts, ha.targetTy]
    · simp [stmtParts, ha.targetTy]

/-- All operands that an instruction mentions come from somewhere, or are elements of arrays. -/
theorem Issued.source (h : s.Issued E S i) {x : Operand} (hx : x ∈ i.mentions) :
    s.Source E S x ∨ ∃ a idx ty, x = .elem a idx ty := by
  obtain ⟨y, hy, hparts⟩ := List.mem_flatMap.1 hx
  have hatom {y : Operand} (hy : s.Source E S y) (hx : x ∈ y.parts) : s.Source E S x := by
    rw [hy.isAtom.parts_eq, List.mem_singleton] at hx
    exact hx ▸ hy
  rcases h.placed y hy with hsource | ⟨a, idx, ty, rfl, ha, hi⟩
  · exact .inl (hatom hsource hparts)
  · rcases List.mem_cons.1 hparts with rfl | hparts
    · exact .inr ⟨a, idx, ty, rfl⟩
    · rcases List.mem_append.1 hparts with hparts | hparts
      · exact .inl (hatom ha hparts)
      · exact .inl (hatom hi hparts)

inductive Indexed (s : Scope) (E : Expr → Option ValType → Prop) (S : Stmt → Prop) :
    Operand → Operand → ValType → Prop
  | read {base idx : Expr} {pos : Position} {hint : Option ValType} {a i : Operand} {ty : ValType} :
      E (.index base idx pos) hint → s.Gives base none a → s.Gives idx (some .int) i →
      ty = a.ty.element?.getD (hint.getD .int) → Indexed s E S a i ty
  | element (x : String) (i : Nat) (ty : ValType) :
      Indexed s E S (.var x (.array ty)) (.int (Int32.ofNat i)) ty
  | argument {recv : Expr} {method : Ident} {args : List Expr} {p : Parameter} (x : String)
      (i : Nat) : s.packing? (s.target? recv method.name) args = some p →
      Indexed s E S (.var x (.ofTy p.symbol.ty)) (.int (Int32.ofNat i)) p.element
  | stored {target : Ident} {idx value : Expr} {pos : Position} {a i : Operand} {ty : ValType} :
      S (.assign target (some idx) value pos) → s.StoreArray target value a →
      ty = a.ty.element?.getD .int → s.Gives idx (some .int) i → Indexed s E S a i ty

/-- Where an element of an array comes from. -/
theorem Issued.indexed (h : s.Issued E S i) {a idx : Operand} {ty : ValType}
    (hx : .elem a idx ty ∈ i.mentions) : s.Indexed E S a idx ty := by
  obtain ⟨x, hmem, hparts⟩ := List.mem_flatMap.1 hx
  obtain rfl := (h.placed x hmem).shallow.eq_of_mem_parts hparts
  have hnot {y : Operand} (hy : y.IsAtom) : .elem a idx ty ≠ y := by
    rintro rfl
    exact hy
  cases h with
  | read | skip | object | construct | allocate | packed =>
    simp [Instr.operands, Rhs.operands, CallKind.operands, Operand.bool, Operand.int] at hmem
  | arith x _ ha hb | less x _ ha hb =>
    simp [Instr.operands, Rhs.operands, hnot ha.isAtom, hnot hb.isAtom] at hmem
  | compare l _ ha hb =>
    simp [Instr.operands, Cond.operands, hnot ha.isAtom, hnot hb.isAtom] at hmem
  | and l _ ha | test l _ _ ha => simp [Instr.operands, Cond.operands, hnot ha.isAtom] at hmem
  | last x _ ha | not x _ ha | length x _ ha | newArray x _ ha =>
    simp [Instr.operands, Rhs.operands, CallKind.operands, hnot ha.isAtom] at hmem
  | index x he ha hi hty =>
    simp only [Instr.operands, Rhs.operands, List.mem_pair, reduceCtorEq, false_or,
      Operand.elem.injEq] at hmem
    obtain ⟨rfl, rfl, rfl⟩ := hmem
    exact .read he ha hi hty
  | element x k _ _ _ hv =>
    simp only [Instr.operands, Rhs.operands, List.mem_pair, hnot hv.isAtom, or_false,
      Operand.elem.injEq] at hmem
    obtain ⟨rfl, rfl, rfl⟩ := hmem
    exact .element x k _
  | argument x k _ hp _ hv =>
    simp only [Instr.operands, Rhs.operands, List.mem_pair, hnot hv.isAtom, or_false,
      Operand.elem.injEq] at hmem
    obtain ⟨rfl, rfl, rfl⟩ := hmem
    exact .argument x k hp
  | call x _ hk =>
    rcases List.mem_cons.1 hmem with hmem | hmem
    · exact absurd hmem nofun
    · exact absurd rfl (hnot (hk.isAtom _ hmem))
  | effect _ _ hk => exact absurd rfl (hnot (hk.isAtom _ hmem))
  | undeclared | unknownClass | unassignable | goto | label | returnNone =>
    exact absurd hmem List.not_mem_nil
  | store _ hdest hv =>
    simp [Instr.operands, Rhs.operands, hnot (isAtom_of_storage hdest), hnot hv.isAtom] at hmem
  | put _ _ hv | returnSome _ hv => simp [Instr.operands, hnot hv.isAtom] at hmem
  | storeAt hs ha hty hi hv =>
    simp only [Instr.operands, Rhs.operands, List.mem_pair, hnot hv.isAtom, or_false,
      Operand.elem.injEq] at hmem
    obtain ⟨rfl, rfl, rfl⟩ := hmem
    exact .stored hs ha hty hi

inductive Makes (s : Scope) (E : Expr → Option ValType → Prop) (S : Stmt → Prop) : Call → Prop
  | length {base : Expr} {pos : Position} {hint : Option ValType} {a : Operand} :
      E (.length base pos) hint → s.Gives base none a → Makes s E S ⟨.length a, .int⟩
  | object (cls : String) : Makes s E S ⟨.new cls, .cls cls⟩
  | construct (x cls : String) : Makes s E S ⟨.special (.var x (.cls cls)), .void⟩
  | newArray {size : Expr} {pos : Position} {hint : Option ValType} {n : Operand} :
      E (.newArray size pos) hint → s.Gives size (some .int) n →
      Makes s E S ⟨.newArray n, .array .int⟩
  | allocate (ty : ValType) (len : Nat) : Makes s E S ⟨.newArray (.int (Int32.ofNat len)), ty⟩
  | method {recv : Expr} {method : Ident} {args : List Expr} {pos : Position}
      {hint : Option ValType} {k : Call} : Evaluates E S (.call recv method args pos) →
      s.GivesCall recv method args hint k → Makes s E S k

theorem Issued.makes (h : s.Issued E S i) {k : Call} (hk : i.call? = some k) : s.Makes E S k := by
  cases h with
  | length x he ha =>
    obtain rfl := Option.some.inj hk
    exact .length he ha
  | object x cls =>
    obtain rfl := Option.some.inj hk
    exact .object cls
  | construct x cls =>
    obtain rfl := Option.some.inj hk
    exact .construct x cls
  | newArray x he ha =>
    obtain rfl := Option.some.inj hk
    exact .newArray he ha
  | allocate x ty len =>
    obtain rfl := Option.some.inj hk
    exact .allocate ty len
  | call x he hgives =>
    obtain rfl := Option.some.inj hk
    exact .method (.inl ⟨_, he⟩) hgives
  | effect hs hcall hgives =>
    obtain rfl := Option.some.inj hk
    exact .method (.inr ⟨_, _, hs, hcall⟩) hgives
  | read | arith | less | and | skip | last | not | index | element | packed | argument
  | undeclared | unknownClass | unassignable | goto | label | test | compare | store | put
  | storeAt | returnNone | returnSome => exact absurd hk nofun

/-- Methods are called on classes and on values, but constructors are run in another way. -/
theorem GivesCall.isMethod {recv : Expr} {method : Ident} {args : List Expr} {k : Call}
    (h : s.GivesCall recv method args hint k) :
    (∃ cls name vs, k.kind = .static cls name vs) ∨ ∃ r name vs, k.kind = .virtual r name vs := by
  obtain ⟨-, n, ⟨cls, -, hk⟩ | ⟨-, r, -, hk⟩⟩ := h.cases
  · exact .inl ⟨cls, _, _, hk⟩
  · exact .inr ⟨r, _, _, hk⟩

end Scope

end MiniJava

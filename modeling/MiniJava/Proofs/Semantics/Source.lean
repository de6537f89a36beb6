import MiniJava.Lower.Expr
import MiniJava.Lower.Stmt
import MiniJava.Proofs.Semantics.Effect

namespace MiniJava

open Tac

/-- What the operations of a program mean. Fields, heap and the trace of calls are parts of the
world; operations may change it and may abort, but they do not see the variables of their caller. -/
structure Interp (V W : Type) where
  int : Int → V
  bool : Bool → V
  this : V
  cls : String → V
  isTrue : V → Bool
  arith : Arith → V → V → Effect W V
  less : V → V → Effect W V
  not : V → Effect W V
  readField : String → Effect W V
  writeField : String → V → Effect W Unit
  load : V → V → Effect W V
  store : V → V → V → Effect W Unit
  newArray : ValType → V → Effect W V
  length : V → Effect W V
  newObject : String → Effect W V
  construct : V → Effect W Unit
  callStatic : String → String → List V → Effect W V
  callVirtual : V → String → List V → Effect W V

/-- Arithmetic with words of 32 bits. Whatever needs an object aborts. -/
def Interp.words : Interp Int32 Unit where
  int := Int32.ofInt
  bool b := if b then 1 else 0
  this := 0
  cls _ := 0
  isTrue v := v != 0
  arith
    | .add, a, b => return a + b
    | .sub, a, b => return a - b
    | .mul, a, b => return a * b
    | .div, a, b => if b = 0 then Outcome.abort else return a / b
  less a b := return if a < b then 1 else 0
  not v := return 1 - v
  readField _ := Outcome.abort
  writeField _ _ := Outcome.abort
  load _ _ := Outcome.abort
  store _ _ _ := Outcome.abort
  newArray _ _ := Outcome.abort
  length _ := Outcome.abort
  newObject _ := Outcome.abort
  construct _ := Outcome.abort
  callStatic _ _ _ := Outcome.abort
  callVirtual _ _ _ := Outcome.abort

abbrev Store (V : Type) := String → V

namespace Store

variable {V : Type}

def set (σ : Store V) (x : String) (v : V) : Store V := fun y ↦ if y = x then v else σ y

@[simp] theorem set_self (σ : Store V) (x : String) (v : V) : σ.set x v x = v := by simp [set]

theorem set_of_ne (σ : Store V) {x y : String} (v : V) (h : y ≠ x) : σ.set x v y = σ y := by
  simp [set, h]

end Store

variable {V W : Type}

def Interp.storeFrom (I : Interp V W) (array : V) : Nat → List (Effect W V) → Effect W Unit
  | _, [] => return
  | i, x :: xs => do
    let v ← x
    I.store array (I.int i) v
    I.storeFrom array (i + 1) xs

def Interp.arrayOf (I : Interp V W) (element : ValType) (xs : List (Effect W V)) : Effect W V := do
  let array ← I.newArray element (I.int xs.length)
  I.storeFrom array 0 xs
  return array

namespace Scope

variable (I : Interp V W) (s : Scope) (σ : Store V)

def gathered? (m : Signature) (args : List Expr) : Option Parameter :=
  match args.drop m.fixedCount with
  | [e] => m.varargs?.filter fun _ ↦ (s.typing e).known?.any (!·.isArray)
  | _ => m.varargs?

def evalArgs (target : Option Signature) (args : List Expr) (evals : List (Effect W V)) :
    Effect W (List V) :=
  match target with
  | none => Effect.inOrder evals
  | some m =>
    match s.gathered? m args with
    | none => Effect.inOrder evals
    | some varargs => do
      let vs ← Effect.inOrder (evals.take m.fixedCount)
      let element := (ValType.ofTy varargs.symbol.ty).element?.getD .int
      let v ← I.arrayOf element (evals.drop m.fixedCount)
      return vs ++ [v]

def evalIdent (name : String) : Effect W V :=
  match s.binding name with
  | .param .. | .local _ => return σ name
  | .field _ | .inherited => I.readField name
  | .cls => return I.cls name
  | .undeclared => Outcome.abort

mutual

def eval : Expr → Effect W V
  | .int v _ => return I.int v.toInt
  | .bool v _ => return I.bool v
  | .ident id => s.evalIdent I σ id.name
  | .this _ => return I.this
  | .binary (.arith op) left right _ => do
    let l ← eval left
    let r ← eval right
    I.arith op l r
  | .binary .less left right _ => do
    let l ← eval left
    let r ← eval right
    I.less l r
  | .binary .and left right _ => do
    let l ← eval left
    if I.isTrue l then eval right else return I.bool false
  | .not e _ => do
    let v ← eval e
    I.not v
  | .paren e _ => eval e
  | .index base idx _ => do
    let array ← eval base
    let i ← eval idx
    I.load array i
  | .length base _ => do
    let array ← eval base
    I.length array
  | .call recv method args _ =>
    match s.className? recv with
    | some cls => do
      let vs ← s.evalArgs I (s.target? recv method.name) args (evalEach args)
      I.callStatic cls method.name vs
    | none => do
      let r ← eval recv
      let vs ← s.evalArgs I (s.target? recv method.name) args (evalEach args)
      I.callVirtual r method.name vs
  | .newObject cls _ => do
    let object ← I.newObject cls.name
    I.construct object
    return object
  | .newArray size _ => do
    let n ← eval size
    I.newArray .int n
  | .array elems _ => I.arrayOf (s.literalElement elems) (evalEach elems)

def evalEach : List Expr → List (Effect W V)
  | [] => []
  | e :: es => eval e :: evalEach es

end

end Scope

structure State (V W : Type) where
  store : Store V
  world : W

inductive Ending (V W : Type) where
  | next (state : State V W)
  | returned (value : Option V) (state : State V W)
  | aborted (state : State V W)

def Ending.Halts : Ending V W → Prop
  | .next _ => False
  | .returned .. | .aborted _ => True

abbrev Meaning (V W : Type) := State V W → Ending V W → Prop

namespace Meaning

def skip : Meaning V W := fun st o ↦ o = .next st

def after {α : Type} (x : Store V → Effect W α) (rest : α → Meaning V W) : Meaning V W :=
  fun st o ↦
    match x st.store st.world with
    | .done a w => rest a ⟨st.store, w⟩ o
    | .abort w => o = .aborted ⟨st.store, w⟩

section

variable {α : Type} {x : Store V → Effect W α} {rest : α → Meaning V W} {st : State V W} {w : W}

theorem after_done {a : α} (h : x st.store st.world = .done a w) :
    after x rest st = rest a ⟨st.store, w⟩ := by
  funext o
  simp only [after, h]

theorem after_abort (h : x st.store st.world = .abort w) :
    after x rest st = fun o ↦ o = .aborted ⟨st.store, w⟩ := by
  funext o
  simp only [after, h]

end

inductive Seq (first rest : Meaning V W) : Meaning V W
  | next {st st' : State V W} {o : Ending V W} :
      first st (.next st') → rest st' o → Seq first rest st o
  | halt {st : State V W} {o : Ending V W} : first st o → o.Halts → Seq first rest st o

inductive Loop (I : Interp V W) (cond : Store V → Effect W V) (body : Meaning V W) : Meaning V W
  | abort {st : State V W} {w : W} :
      cond st.store st.world = .abort w → Loop I cond body st (.aborted ⟨st.store, w⟩)
  | stop {st : State V W} {v : V} {w : W} :
      cond st.store st.world = .done v w → I.isTrue v = false →
      Loop I cond body st (.next ⟨st.store, w⟩)
  | again {st st' : State V W} {v : V} {w : W} {o : Ending V W} :
      cond st.store st.world = .done v w → I.isTrue v = true →
      body ⟨st.store, w⟩ (.next st') → Loop I cond body st' o → Loop I cond body st o
  | halt {st : State V W} {v : V} {w : W} {o : Ending V W} :
      cond st.store st.world = .done v w → I.isTrue v = true →
      body ⟨st.store, w⟩ o → o.Halts → Loop I cond body st o

end Meaning

namespace Scope

open Meaning

variable (I : Interp V W) (s : Scope)

/-- An element's array and place are evaluated before its new value. -/
def assignMeaning (target : Ident) (index : Option Expr) (value : Expr) : Meaning V W :=
  match s.binding target.name, index with
  | .param .., none | .local _, none =>
    after (fun σ ↦ s.eval I σ value) fun v st o ↦
      o = .next ⟨st.store.set target.name v, st.world⟩
  | .param .., some i | .local _, some i =>
    after (fun σ ↦ do
      let j ← s.eval I σ i
      let v ← s.eval I σ value
      I.store (σ target.name) j v) fun _ ↦ skip
  | .field _, none | .inherited, none =>
    after (fun σ ↦ do
      let v ← s.eval I σ value
      I.writeField target.name v) fun _ ↦ skip
  | .field _, some i | .inherited, some i =>
    after (fun σ ↦ do
      let array ← I.readField target.name
      let j ← s.eval I σ i
      let v ← s.eval I σ value
      I.store array j v) fun _ ↦ skip
  | .cls, _ | .undeclared, _ => fun st o ↦ o = .aborted st

mutual

def meaning : Stmt → Meaning V W
  | .var _ => skip
  | .block body _ => meaningAll body
  | .ifThen cond body _ =>
    after (fun σ ↦ s.eval I σ cond) fun v ↦ if I.isTrue v then meaning body else skip
  | .ifElse cond body other _ =>
    after (fun σ ↦ s.eval I σ cond) fun v ↦ if I.isTrue v then meaning body else meaning other
  | .while cond body _ => Loop I (fun σ ↦ s.eval I σ cond) (meaning body)
  | .expr e _ => after (fun σ ↦ s.eval I σ e) fun _ ↦ skip
  | .assign target index value _ => s.assignMeaning I target index value
  | .return none _ => fun st o ↦ o = .returned none st
  | .return (some e) _ => after (fun σ ↦ s.eval I σ e) fun v st o ↦ o = .returned (some v) st

def meaningAll : List Stmt → Meaning V W
  | [] => skip
  | stmt :: rest => Seq (meaning stmt) (meaningAll rest)

end

end Scope

inductive MethodDecl.Finishes (I : Interp V W) (s : Scope) (m : MethodDecl) (st : State V W) :
    Option V → State V W → Prop
  | returned {r : Option V} {st' : State V W} :
      s.meaningAll I m.body st (.returned r st') → Finishes I s m st r st'
  | fellOff {st' : State V W} :
      m.ret.ty = .void → s.meaningAll I m.body st (.next st') → Finishes I s m st none st'

def MethodDecl.Aborts (I : Interp V W) (s : Scope) (m : MethodDecl) (st st' : State V W) : Prop :=
  s.meaningAll I m.body st (.aborted st')

end MiniJava

import MiniJava.Tree.Program

namespace MiniJava

namespace Expr

def children : Expr → List Expr
  | .int .. | .bool .. | .ident _ | .this _ | .newObject .. => []
  | .binary _ left right _ => [left, right]
  | .not e _ | .paren e _ | .length e _ | .newArray e _ => [e]
  | .index base idx _ => [base, idx]
  | .call recv _ args _ => recv :: args
  | .array elems _ => elems

mutual

theorem induction_one {motive : Expr → Prop}
    (step : ∀ e, (∀ c ∈ e.children, motive c) → motive e) : ∀ e, motive e
  | .int .. | .bool .. | .ident _ | .this _ | .newObject .. => step _ (by simp [children])
  | .binary _ left right _ =>
    step _ (List.forall_mem_cons.2 ⟨induction_one step left, by
      simpa using induction_one step right⟩)
  | .not e _ | .paren e _ | .length e _ | .newArray e _ =>
    step _ (by simpa [children] using induction_one step e)
  | .index base idx _ =>
    step _ (List.forall_mem_cons.2 ⟨induction_one step base, by
      simpa using induction_one step idx⟩)
  | .call recv _ args _ =>
    step _ (List.forall_mem_cons.2 ⟨induction_one step recv, induction_each step args⟩)
  | .array elems _ => step _ (induction_each step elems)

theorem induction_each {motive : Expr → Prop}
    (step : ∀ e, (∀ c ∈ e.children, motive c) → motive e) : ∀ es : List Expr, ∀ c ∈ es, motive c
  | [] => by simp
  | e :: es => List.forall_mem_cons.2 ⟨induction_one step e, induction_each step es⟩

end

/-- What holds of an expression whenever it holds of its children holds of all expressions. -/
@[elab_as_elim]
theorem children_induction {motive : Expr → Prop} (e : Expr)
    (step : ∀ e, (∀ c ∈ e.children, motive c) → motive e) : motive e := induction_one step e

inductive Everywhere (P : Expr → Prop) : Expr → Prop
  | intro (e : Expr) : P e → (∀ c ∈ e.children, Everywhere P c) → Everywhere P e

theorem Everywhere.of_forall {P : Expr → Prop} (h : ∀ e, P e) (e : Expr) : e.Everywhere P := by
  induction e using children_induction with
  | step e ih => exact .intro e (h e) ih

theorem Everywhere.leaf {P : Expr → Prop} {e : Expr} (h : P e) (hc : e.children = []) :
    e.Everywhere P := .intro e h (by simp [hc])

theorem Everywhere.one {P : Expr → Prop} {e a : Expr} (h : P e) (hc : e.children = [a])
    (ha : a.Everywhere P) : e.Everywhere P := .intro e h (by simpa [hc] using ha)

theorem Everywhere.two {P : Expr → Prop} {e a b : Expr} (h : P e) (hc : e.children = [a, b])
    (ha : a.Everywhere P) (hb : b.Everywhere P) : e.Everywhere P :=
  .intro e h (by simpa [hc] using ⟨ha, hb⟩)

theorem Everywhere.here {P : Expr → Prop} {e : Expr} (h : e.Everywhere P) : P e := by
  cases h
  assumption

theorem Everywhere.inside {P : Expr → Prop} {e : Expr} (h : e.Everywhere P) :
    ∀ c ∈ e.children, c.Everywhere P := by
  cases h
  assumption

theorem Everywhere.unparen {P : Expr → Prop} {e : Expr} (h : e.Everywhere P) :
    e.unparen.Everywhere P := by
  induction e using children_induction with
  | step e ih =>
    cases e with
    | paren e pos => exact ih e (by simp [children]) (h.inside e (by simp [children]))
    | int | bool | ident | this | binary | not | index | length | call | newObject | newArray
    | array => exact h

end Expr

namespace Stmt

mutual

def exprs : Stmt → List Expr
  | .var _ => []
  | .block body _ => exprsAll body
  | .ifThen cond body _ | .while cond body _ => cond :: exprs body
  | .ifElse cond body other _ => cond :: (exprs body ++ exprs other)
  | .expr e _ => [e]
  | .assign _ index value _ => index.toList ++ [value]
  | .return value _ => value.toList

def exprsAll : List Stmt → List Expr
  | [] => []
  | stmt :: rest => exprs stmt ++ exprsAll rest

end

end Stmt

end MiniJava

import MiniJava.Lower.Stmt

namespace MiniJava

open Tac Lower

theorem Lower.bind_apply {α β : Type} (x : Lower α) (f : α → Lower β) (n : Numbering) :
    (x >>= f) n =
      { value := (f (x n).value (x n).next).value
        code := (x n).code ++ (f (x n).value (x n).next).code
        findings := (x n).findings ++ (f (x n).value (x n).next).findings
        next := (f (x n).value (x n).next).next } := rfl

namespace Scope

variable (s : Scope)

theorem lowerEach_eq_map (es : List Expr) : s.lowerEach es = es.map s.lower := by
  induction es with
  | nil => rfl
  | cons e es ih => rw [lowerEach, ih, List.map_cons]

def assignFresh (stem : String) (ty : ValType) (rhs : Rhs) : Lower Operand := do
  let t := Operand.var (← freshName s.symbols.declaredNames stem) ty
  Lower.emit (.assign t ty rhs)
  return t

theorem toTemp_eq_assignFresh (ty : ValType) (rhs : Rhs) :
    s.toTemp ty rhs = s.assignFresh "tmp" ty rhs := rfl

theorem pack_eq (ty : ValType) (tail : List (Option ValType → Lower Operand)) :
    s.pack ty tail = do
      let allocated ← s.allocate ty tail.length
      let packed ← s.assignFresh "__varargs_array_" ty (.value allocated)
      storeFrom packed (ty.element?.getD .int) 0 tail
      return packed := by
  simp only [pack, assignFresh, bind_assoc, pure_bind]

def createObject (cls : String) : Lower Operand := do
  let object ← s.toTemp (.cls cls) (.call ⟨.new cls, .cls cls⟩)
  Lower.emit (.call ⟨.special object, .void⟩)
  return object

theorem lowerNewObject_eq (cls : Ident) (pos : Position) :
    s.lowerNewObject cls pos =
      if s.symbols.isClassName cls.name then s.createObject cls.name
      else Lower.unsupported s!"instantiation of unknown class '{cls.name}'" pos >>= fun _ ↦
        s.createObject cls.name := rfl

theorem lowerAnd_apply (left right : Lower Operand) (n : Numbering) :
    s.lowerAnd left right n =
      let l := left n
      let k := l.next.label
      let t := s.freshTemp .bool { l.next with label := k + 1 }
      let r := right t.next
      { value := t.value
        code := l.code ++ (.branch (.value l.value) (numbered "true_" k) ::
          .assign t.value .bool (.value (.bool false)) :: .goto (numbered "end_" k) ::
          .label (numbered "true_" k) :: (r.code ++
            [.assign t.value .bool (.value r.value), .label (numbered "end_" k)]))
        findings := l.findings ++ r.findings
        next := r.next } := by
  simp only [lowerAnd, bind_apply, emit_apply, pure_apply, freshLabel, List.append_nil]
  rfl

theorem lowerIf_apply (cond : Expr) (body other : Lower Unit) (n : Numbering) :
    s.lowerIf cond body other n =
      let k := n.label
      let c := s.lowerCond cond { n with label := k + 1 }
      let b := body c.next
      let o := other b.next
      { value := ()
        code := c.code ++ (.branch c.value (numbered "if" k) :: .goto (numbered "else" k) ::
          .label (numbered "if" k) :: (b.code ++ (.goto (numbered "endif" k) ::
            .label (numbered "else" k) :: (o.code ++ [.label (numbered "endif" k)]))))
        findings := c.findings ++ (b.findings ++ o.findings)
        next := o.next } := by
  simp only [lowerIf, bind_apply, emit_apply, freshLabel, List.append_nil]
  rfl

theorem lowerWhile_apply (cond : Expr) (body : Lower Unit) (n : Numbering) :
    s.lowerWhile cond body n =
      let k := n.label
      let c := s.lowerCond cond { n with label := k + 1 }
      let b := body c.next
      let c' := s.lowerCond cond b.next
      { value := ()
        code := c.code ++ (.branch c.value (numbered "whilebody_" k) ::
          .goto (numbered "endwhile_" k) :: .label (numbered "whilebody_" k) ::
            (b.code ++ (c'.code ++ [.branch c'.value (numbered "whilebody_" k),
              .label (numbered "endwhile_" k)])))
        findings := c.findings ++ (b.findings ++ c'.findings)
        next := c'.next } := by
  simp only [lowerWhile, bind_apply, emit_apply, freshLabel, List.append_nil]
  rfl

end Scope

end MiniJava

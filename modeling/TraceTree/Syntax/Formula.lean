import TraceTree.Syntax.Operator

set_option autoImplicit false

/-! # Operator precedence

The grammar gives an expression as a sequence of operands with operators between them. `Formula` is
the tree that the precedence of the operators makes of such a sequence: `extend` attaches one more
operator and operand at the right, below every operator on the right edge that binds looser than
the new one. All operators associate to the left. -/

namespace TraceTree

/-- A sequence of operands and operators, arranged as a tree. -/
inductive Formula (α : Type) where
  | operand (a : α)
  | binary (op : InfixOp) (left right : Formula α)

namespace Formula

variable {α : Type}

/-- Attach an operator and an operand at the right. -/
def extend (op : InfixOp) (a : α) : Formula α → Formula α
  | operand b => binary op (operand b) (operand a)
  | binary o left right =>
    if o.precedence < op.precedence then binary o left (right.extend op a)
    else binary op (binary o left right) (operand a)

/-- The operands and operators in the order in which they are written. -/
def inOrder : Formula α → List (α ⊕ InfixOp)
  | operand a => [.inl a]
  | binary op left right => left.inOrder ++ .inr op :: right.inOrder

/-- Attaching at the right adds to the end of the sequence. -/
theorem inOrder_extend (op : InfixOp) (a : α) (f : Formula α) :
    (f.extend op a).inOrder = f.inOrder ++ [.inr op, .inl a] := by
  induction f with
  | operand b => rfl
  | binary o left right _ ihr =>
    simp only [extend]
    split
    · simp [inOrder, ihr]
    · simp [inOrder]

/-- What holds of the operands of a formula and of one more holds when it is attached. -/
theorem forall_extend {holds : α → Prop} (f : Formula α)
    (hf : ∀ b, .inl b ∈ f.inOrder → holds b) (op : InfixOp) {a : α} (ha : holds a) :
    ∀ b, .inl b ∈ (f.extend op a).inOrder → holds b := by
  intro b hb
  rw [inOrder_extend] at hb
  simp only [List.mem_append, List.mem_cons, Sum.inl.injEq, reduceCtorEq, List.not_mem_nil,
    or_false, false_or] at hb
  rcases hb with hb | rfl
  · exact hf b hb
  · exact ha

/-- The operator at the root binds tighter than `n`; an operand stands by itself. -/
def TighterThan (n : Nat) : Formula α → Prop
  | operand _ => True
  | binary op _ _ => n < op.precedence

/-- The operator at the root binds at least as tight as `n`. -/
def AtLeast (n : Nat) : Formula α → Prop
  | operand _ => True
  | binary op _ _ => n ≤ op.precedence

/-- Each operator has at its left only operators that bind at least as tight, and at its right
only operators that bind tighter. -/
def Arranged : Formula α → Prop
  | operand _ => True
  | binary op left right =>
    left.AtLeast op.precedence ∧ right.TighterThan op.precedence ∧ left.Arranged ∧ right.Arranged

theorem TighterThan.extend {n : Nat} {op : InfixOp} {a : α} {f : Formula α}
    (hf : f.TighterThan n) (hop : n < op.precedence) : (f.extend op a).TighterThan n := by
  cases f with
  | operand b => exact hop
  | binary o left right =>
    simp only [Formula.extend]
    split
    · exact hf
    · exact hop

/-- Attaching at the right keeps a formula arranged. -/
theorem Arranged.extend {op : InfixOp} {a : α} {f : Formula α} (hf : f.Arranged) :
    (f.extend op a).Arranged := by
  induction f with
  | operand b => exact ⟨trivial, trivial, trivial, trivial⟩
  | binary o left right _ ihr =>
    obtain ⟨hl, hr, al, ar⟩ := hf
    simp only [Formula.extend]
    split
    · next h => exact ⟨hl, hr.extend h, al, ihr ar⟩
    · next h => exact ⟨Nat.le_of_not_lt h, trivial, ⟨hl, hr, al, ar⟩, trivial⟩

end Formula

end TraceTree

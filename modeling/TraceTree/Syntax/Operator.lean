set_option autoImplicit false

/-! # Operators

The operators of the language, their spelling and how tightly the binary ones bind. -/

namespace TraceTree

/-- An operator in front of its operand. -/
inductive PrefixOp where
  | not
  | neg
  deriving DecidableEq

/-- An operator between two operands. -/
inductive InfixOp where
  | add
  | sub
  | mul
  | div
  | lt
  | gt
  | eq
  | notEq
  deriving DecidableEq

/-- The spelling of an operator. -/
def PrefixOp.text : PrefixOp → String
  | not => "!"
  | neg => "-"

namespace InfixOp

/-- The spelling of an operator. -/
def text : InfixOp → String
  | add => "+"
  | sub => "-"
  | mul => "*"
  | div => "/"
  | lt => "<"
  | gt => ">"
  | eq => "=="
  | notEq => "!="

/-- How tightly an operator binds: equality is loosest, then order, sums and products. -/
def precedence : InfixOp → Nat
  | eq | notEq => 1
  | lt | gt => 2
  | add | sub => 3
  | mul | div => 4

end InfixOp

end TraceTree

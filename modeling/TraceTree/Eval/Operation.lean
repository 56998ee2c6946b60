import TraceTree.Value.Basic

set_option autoImplicit false

/-! # Operations on values

What the operators make of their operands. Integers have 64 bits and wrap around; a quotient is
truncated toward zero. An operation gives a content without identity, since the truth values exist
once and for all while each integer is a new value. -/

namespace TraceTree

/-- What an operation gives. -/
inductive Result where
  | integer (value : Int64)
  | boolean (value : Bool)
  | fault (fault : Fault)
  deriving DecidableEq

/-- Apply an operator to the operand after it. -/
def PrefixOp.apply (op : PrefixOp) (right : Value) : Result :=
  match op, right with
  | .not, right => .boolean (!right.isTruthy)
  | .neg, .integer _ n => .integer (-n)
  | .neg, other => .fault (.unknownPrefix .neg other.type)

namespace InfixOp

/-- Apply an operator to two integers. -/
def applyIntegers (op : InfixOp) (left right : Int64) : Result :=
  match op with
  | add => .integer (left + right)
  | sub => .integer (left - right)
  | mul => .integer (left * right)
  | div => if right = 0 then .fault .divisionByZero else .integer (left / right)
  | lt => .boolean (left < right)
  | gt => .boolean (left > right)
  | eq => .boolean (left == right)
  | notEq => .boolean (left != right)

/-- Apply an operator to two values. -/
def apply (op : InfixOp) (left right : Value) : Result :=
  match left, right with
  | .integer _ l, .integer _ r => op.applyIntegers l r
  | left, right =>
    match op with
    | eq => .boolean (left.same right)
    | notEq => .boolean (!left.same right)
    | op =>
      if left.type = right.type then .fault (.unknownInfix left.type op right.type)
      else .fault (.typeMismatch left.type op right.type)

end InfixOp

end TraceTree

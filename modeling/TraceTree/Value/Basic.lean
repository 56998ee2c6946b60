import TraceTree.Syntax.Printer

set_option autoImplicit false

/-! # Values

A value carries an identity beside its content. Values are shared, never copied: reading a name
gives the value that was bound to it, and two values with equal content can be different ones.
What a value identifies is kept when it is stored in a scope, passed to a function or wrapped by a
`return`, so "the same value" can be asked anywhere.

Failures of the evaluated program are values too; `Fault` lists their causes. -/

namespace TraceTree

/-- What tells a scope apart from all others: its position in the heap. -/
abbrev ScopeId := Nat

/-- The values of which each evaluator has exactly one. -/
inductive Constant where
  | boolean (value : Bool)
  | null
  deriving DecidableEq

/-- What tells a value apart from all others. -/
inductive ValueId where
  /-- The value made as number `serial`. -/
  | made (serial : Nat)
  /-- The constant that an evaluator keeps for all its runs. -/
  | shared (evaluator : Nat) (constant : Constant)
  deriving DecidableEq

/-- The types of values. -/
inductive ValueType where
  | integer
  | boolean
  | null
  | returned
  | error
  | function
  deriving DecidableEq

/-- The name of a type. -/
def ValueType.name : ValueType → String
  | integer => "INTEGER"
  | boolean => "BOOLEAN"
  | null => "NULL"
  | returned => "RETURN_VALUE"
  | error => "ERROR"
  | function => "FUNCTION"

/-! ## Faults -/

/-- Why an evaluation step has no proper result. -/
inductive Fault where
  | unboundIdentifier (name : String)
  | notAFunction (type : ValueType)
  | wrongArity (want got : Nat)
  | typeMismatch (left : ValueType) (op : InfixOp) (right : ValueType)
  | unknownInfix (left : ValueType) (op : InfixOp) (right : ValueType)
  | unknownPrefix (op : PrefixOp) (right : ValueType)
  | divisionByZero
  /-- A failure made by hand, in the words of its maker. -/
  | stated (message : String)
  deriving DecidableEq

/-- The wording of a fault. -/
def Fault.message : Fault → String
  | unboundIdentifier name => "identifier not found: " ++ name
  | notAFunction type => "not a function: " ++ type.name
  | wrongArity want got =>
    "wrong number of arguments: want=" ++ toString want ++ ", got=" ++ toString got
  | typeMismatch left op right =>
    "type mismatch: " ++ left.name ++ " " ++ op.text ++ " " ++ right.name
  | unknownInfix left op right =>
    "unknown operator: " ++ left.name ++ " " ++ op.text ++ " " ++ right.name
  | unknownPrefix op right => "unknown operator: " ++ op.text ++ right.name
  | divisionByZero => "division by zero"
  | stated message => message

/-! ## Values -/

/-- A function together with the scope it was defined in. -/
structure Closure where
  parameters : List Node
  body : Node
  scope : ScopeId

/-- A value. -/
inductive Value where
  | integer (id : ValueId) (value : Int64)
  | boolean (id : ValueId) (value : Bool)
  | null (id : ValueId)
  /-- The operand of a `return` on its way out of the function or program. -/
  | returned (id : ValueId) (value : Value)
  | error (id : ValueId) (fault : Fault)
  | function (id : ValueId) (closure : Closure)

namespace Value

/-- The identity of a value. -/
def id : Value → ValueId
  | integer id _ | boolean id _ | null id | returned id _ | error id _ | function id _ => id

/-- Whether two values are one and the same. -/
def is (a b : Value) : Bool := a.id == b.id

/-- The type of a value. -/
def type : Value → ValueType
  | integer _ _ => .integer
  | boolean _ _ => .boolean
  | null _ => .null
  | returned _ _ => .returned
  | error _ _ => .error
  | function _ _ => .function

/-- Everything counts as true except `false` and null. -/
def isTruthy : Value → Bool
  | boolean _ false | null _ => false
  | _ => true

/-- Whether a value is a fault. -/
def isError : Value → Bool
  | error _ _ => true
  | _ => false

/-- The integer that a value is. -/
def int? : Value → Option Int64
  | integer _ n => some n
  | _ => none

/-- The truth value that a value is. -/
def bool? : Value → Option Bool
  | boolean _ b => some b
  | _ => none

/-- Equality as the language sees it where an operand is no integer: truth values and null are
compared by content, all else by identity. -/
def same : Value → Value → Bool
  | boolean _ a, boolean _ b => a == b
  | null _, null _ => true
  | a, b => a.is b

end Value

/-! ## The text of a value -/

/-- A statement of a function body: an expression statement has no semicolon there. -/
def Node.bodyStatementText : Node → String
  | .expressionStatement _ expression => expression.text
  | other => other.text

/-- The statements of a function body, one below the other. -/
def Node.bodyText : Node → String
  | .block _ statements => Node.joined "\n" (statements.map Node.bodyStatementText)
  | other => other.text

/-- The text of a function. -/
def Closure.text (f : Closure) : String :=
  "fn(" ++ Node.joined ", " (Node.texts f.parameters) ++ ") \x7b\n" ++ f.body.bodyText ++ "\n\x7d"

/-- The text of a value. The wrapper of a `return` does not show. -/
def Value.text : Value → String
  | integer _ n => toString n.toInt
  | boolean _ b => if b then "true" else "false"
  | null _ => "null"
  | returned _ value => value.text
  | error _ fault => "ERROR: " ++ fault.message
  | function _ closure => closure.text

end TraceTree

import TraceTree.Eval.Operation
import TraceTree.Trace.Basic
import TraceTree.Value.Heap

set_option autoImplicit false

/-! # Evaluation

A tree-walking evaluator. It counts how many nodes are being evaluated inside one another and gives
up when the count would exceed its limit; every evaluation below the limit ends. Faults of the
evaluated program are values and end the evaluation of whatever needs them.

`Node.evaluate` says how the value of a node comes from those of its parts, whatever their
evaluation may be; `evalWithin` puts the depth check and the record of events around it, and
recurses on the depth that remains. The state on the way is the same whether the evaluation ends
with a value or is given up, so bindings and events made before that remain. -/

namespace TraceTree

/-- The evaluation was given up: the depth reached and the greatest one allowed. -/
structure Overflow where
  depth : Nat
  limit : Nat
  deriving DecidableEq

/-- The wording of an overflow. -/
def Overflow.message (o : Overflow) : String :=
  "evaluation stack overflow: depth " ++ toString o.depth ++ " exceeds maximum of " ++
    toString o.limit

/-- The greatest depth unless another is asked for. -/
def defaultLimit : Nat := 1000

/-- An evaluator and the heap it works on. -/
structure Machine where
  heap : Heap
  trace : Trace
  /-- How many nodes are being evaluated. -/
  depth : Nat
  /-- How many nodes may be evaluated inside one another. -/
  limit : Nat
  /-- Whether events are recorded. -/
  tracing : Bool
  /-- Tells the constants of this evaluator from those of others. -/
  number : Nat

namespace Machine

/-- A new evaluator. -/
def new (heap : Heap) (limit : Nat) (tracing : Bool) : Machine where
  heap := { heap with evaluators := heap.evaluators + 1 }
  trace := .empty
  depth := 0
  limit := limit
  tracing := tracing
  number := heap.evaluators

/-- The evaluator's truth values. -/
def boolean (m : Machine) (b : Bool) : Value := .boolean (.shared m.number (.boolean b)) b

/-- The evaluator's null. -/
def null (m : Machine) : Value := .null (.shared m.number .null)

end Machine

/-- A step of an evaluation. -/
abbrev Eval := ExceptT Overflow (StateM Machine)

namespace Eval

/-- Give up. -/
def overflow {α : Type} : Eval α := fun m => (.error ⟨m.depth, m.limit⟩, m)

/-- Record that a node is entered. -/
def enter (node : Node) (scope : ScopeId) : Eval Unit :=
  modify fun m => if m.tracing then { m with trace := m.trace.enter node scope } else m

/-- Record that a node is left. -/
def leave (node : Node) (scope : ScopeId) (value : Option Value) : Eval Unit :=
  modify fun m => if m.tracing then { m with trace := m.trace.exit node scope value } else m

/-- Do something one level deeper; the depth is the same after it, also when it is given up. -/
def deeper {α : Type} (act : Eval α) : Eval α := fun m =>
  let (result, m') := act { m with depth := m.depth + 1 }
  (result, { m' with depth := m'.depth - 1 })

/-- Make a value with an identity of its own. -/
def make (content : ValueId → Value) : Eval Value := fun m =>
  let (id, heap) := m.heap.newValue
  (.ok (content id), { m with heap := heap })

/-- The evaluator's null. -/
def null : Eval Value := fun m => (.ok m.null, m)

/-- Make a scope inside another one. -/
def newScope (outer : ScopeId) : Eval ScopeId := fun m =>
  let (scope, heap) := m.heap.newScope (some outer)
  (.ok scope, { m with heap := heap })

/-- Bind a name. -/
def bindName (scope : ScopeId) (name : String) (value : Value) : Eval Unit :=
  modify fun m => { m with heap := m.heap.set scope name value }

/-- The value of a name. -/
def lookUp (scope : ScopeId) (name : String) : Eval (Option Value) := fun m =>
  (.ok (m.heap.get? scope name), m)

/-- The value for the result of an operation. -/
def ofResult : Result → Eval Value
  | .integer n => make (.integer · n)
  | .boolean b => fun m => (.ok (m.boolean b), m)
  | .fault fault => make (.error · fault)

/-- The value itself, or null where there is none. -/
def orNull : Option Value → Eval Value
  | some value => pure value
  | none => null

end Eval

namespace Value

/-- Whether a statement with this value ends the statements around it. -/
def endsSequence : Value → Bool
  | returned _ _ | error _ _ => true
  | _ => false

/-- The value without the wrapper of a `return`. -/
def unwrapped : Value → Value
  | returned _ value => value
  | value => value

end Value

/-! ## The value of a node from those of its parts -/

/-- Evaluate statements in order, until one returns or fails; `last` is the value of the statement
before them. -/
def evalStatements (eval : Node → Eval (Option Value)) (last : Option Value) :
    List Node → Eval (Option Value)
  | [] => pure last
  | statement :: more => do
    let value ← eval statement
    if value.any Value.endsSequence then pure value else evalStatements eval value more

/-- Evaluate arguments in order, until one fails: their values, or the fault. -/
def evalArguments (eval : Node → Eval Value) : List Node → Eval (Except Value (List Value))
  | [] => pure (.ok [])
  | argument :: more => do
    let value ← eval argument
    if value.isError then pure (.error value)
    else do
      let others ← evalArguments eval more
      pure (others.map (value :: ·))

/-- Bind parameters to arguments; what is no identifier is not bound. -/
def bindParameters (scope : ScopeId) : List (Node × Value) → Eval Unit
  | [] => pure ()
  | (parameter, argument) :: more => do
    match parameter.name? with
    | some name => Eval.bindName scope name argument
    | none => pure ()
    bindParameters scope more

/-- Call a function: its body is evaluated in a new scope inside the one it was defined in. -/
def applyFunction (eval : Node → ScopeId → Eval (Option Value)) (function : Value)
    (arguments : List Value) : Eval Value :=
  match function with
  | .function _ closure =>
    if closure.parameters.length = arguments.length then do
      let scope ← Eval.newScope closure.scope
      bindParameters scope (closure.parameters.zip arguments)
      let result ← eval closure.body scope
      let value ← Eval.orNull result
      pure value.unwrapped
    else Eval.make (.error · (.wrongArity closure.parameters.length arguments.length))
  | other => Eval.make (.error · (.notAFunction other.type))

/-- The value of a node in a scope, where `eval` evaluates its parts. -/
def Node.evaluate (eval : Node → ScopeId → Eval (Option Value)) (node : Node) (scope : ScopeId) :
    Eval (Option Value) :=
  let valueOf : Node → Eval Value := fun part => do
    let value ← eval part scope
    Eval.orNull value
  match node with
  | .program _ statements => do
    let value ← evalStatements (eval · scope) none statements
    pure (value.map Value.unwrapped)
  | .block _ statements => evalStatements (eval · scope) none statements
  | .expressionStatement _ expression => eval expression scope
  | .returnStatement _ operand => do
    let value ← valueOf operand
    if value.isError then pure (some value)
    else do
      let wrapped ← Eval.make (.returned · value)
      pure (some wrapped)
  | .letStatement _ target operand => do
    let value ← valueOf operand
    if value.isError then pure (some value)
    else do
      match target.name? with
      | some name => Eval.bindName scope name value
      | none => pure ()
      pure none
  | .integer _ n => some <$> Eval.make (.integer · n)
  | .boolean _ b => some <$> Eval.ofResult (.boolean b)
  | .identifier _ name => do
    let found ← Eval.lookUp scope name
    match found with
    | some value => pure (some value)
    | none => some <$> Eval.make (.error · (.unboundIdentifier name))
  | .prefixExpression _ op operand => do
    let right ← valueOf operand
    if right.isError then pure (some right)
    else some <$> Eval.ofResult (op.apply right)
  | .infixExpression _ op first second => do
    let left ← valueOf first
    if left.isError then pure (some left)
    else do
      let right ← valueOf second
      if right.isError then pure (some right)
      else some <$> Eval.ofResult (op.apply left right)
  | .ifExpression _ condition consequence alternative => do
    let test ← valueOf condition
    if test.isError then pure (some test)
    else if test.isTruthy then eval consequence scope
    else
      match alternative with
      | some other => eval other scope
      | none => some <$> Eval.null
  | .functionLiteral _ parameters body =>
    some <$> Eval.make (.function · ⟨parameters, body, scope⟩)
  | .call _ callee operands => do
    let function ← valueOf callee
    if function.isError then pure (some function)
    else do
      let arguments ← evalArguments valueOf operands
      match arguments with
      | .error fault => pure (some fault)
      | .ok values => some <$> applyFunction eval function values

/-- Evaluate a node, entering at most `remaining` nodes inside one another. -/
def evalWithin : Nat → Node → ScopeId → Eval (Option Value)
  | 0, _, _ => Eval.overflow
  | remaining + 1, node, scope => do
    Eval.enter node scope
    let value ← Eval.deeper (node.evaluate (evalWithin remaining) scope)
    Eval.leave node scope value
    pure value

/-- Evaluate a node in a scope: its value, if it has one, unless the evaluation is given up; and
the evaluator afterwards. -/
def Machine.eval (m : Machine) (node : Node) (scope : ScopeId) :
    Except Overflow (Option Value) × Machine :=
  evalWithin (m.limit - m.depth) node scope m

end TraceTree

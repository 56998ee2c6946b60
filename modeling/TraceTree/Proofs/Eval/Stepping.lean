import Mathlib.Logic.Relation
import TraceTree.Eval.Machine

set_option autoImplicit false

/-! # Evaluation in single steps

`evalWithin` says what the evaluation of a node comes to. This file says what it does on the way: a
configuration is an evaluator together with the nodes it has entered and not left yet, and
`Config.Step` takes it on by one step. A step asks for the next node, enters the node asked for, or
leaves the innermost one, so what holds at every moment of an evaluation is shown for one step and
then for all of them.

The nodes that are open are a list of `Frame`s, the innermost first. A frame keeps the values that
the parts of its node came to so far, in the order of their evaluation, and `Node.move` reads off
them what the node does next. That the steps lead where `evalWithin` does is shown in `Simulation`. -/

namespace TraceTree

/-! ## What a node does next -/

/-- How the evaluation of a node ends, once no more parts of it are to be evaluated. -/
inductive Ending where
  /-- With a value there is already, or with none. -/
  | value (value : Option Value)
  /-- With a new wrapper around a value. -/
  | wrap (value : Value)
  /-- With no value, after the name that `target` spells is bound. -/
  | bind (target : Node) (value : Value)
  /-- With the value of a name. -/
  | lookUp (name : String)
  /-- With a new function defined in the scope of the node. -/
  | close (parameters : List Node) (body : Node)
  /-- With the value for what an operation gives. -/
  | result (result : Result)

/-- What a node does next. -/
inductive Move where
  /-- It evaluates one of its fields in its own scope. -/
  | visit (part : Node)
  /-- It evaluates the body of a function in a new scope, where the parameters are bound. -/
  | call (closure : Closure) (arguments : List Value)
  /-- It ends. -/
  | finish (ending : Ending)

namespace Move

/-- A move with a value, unless the value is a fault: then the node ends with the fault. -/
def unlessError (value : Value) (move : Move) : Move :=
  if value.isError then .finish (.value (some value)) else move

/-- The move of a sequence of statements. `last` is the value before the statements, `done` are the
values of those evaluated; `close` is what becomes of the value of the sequence. -/
def sequence (close : Option Value → Option Value) (last : Option Value) :
    List Node → List (Option Value) → Move
  | [], _ => .finish (.value (close last))
  | statement :: _, [] =>
    if last.any Value.endsSequence then .finish (.value (close last)) else .visit statement
  | _ :: more, value :: done => sequence close value more done

/-- The move of a call whose function and arguments are evaluated; `done` is the value of the body,
once there is one. -/
def application (null : Value) (function : Value) (arguments : List Value) :
    List (Option Value) → Move
  | [] =>
    match function with
    | .function _ closure =>
      if closure.parameters.length = arguments.length then .call closure arguments
      else .finish (.result (.fault (.wrongArity closure.parameters.length arguments.length)))
    | other => .finish (.result (.fault (.notAFunction other.type)))
  | result :: _ => .finish (.value (some (result.getD null).unwrapped))

/-- The move of a call whose function is evaluated; `values` are the arguments evaluated before the
operands left. -/
def operands (null : Value) (function : Value) (values : List Value) :
    List Node → List (Option Value) → Move
  | [], done => application null function values done
  | operand :: _, [] => .visit operand
  | _ :: more, value :: done =>
    unlessError (value.getD null) (operands null function (values ++ [value.getD null]) more done)

end Move

/-- The next move of a node. `done` are the values of the parts evaluated so far, and `null` stands
for one that is absent. -/
def Node.move (null : Value) : Node → List (Option Value) → Move
  | .program _ statements, done =>
    .sequence (Option.map Value.unwrapped) none statements done
  | .block _ statements, done => .sequence (fun value => value) none statements done
  | .expressionStatement _ expression, [] => .visit expression
  | .expressionStatement _ _, value :: _ => .finish (.value value)
  | .returnStatement _ operand, [] => .visit operand
  | .returnStatement _ _, value :: _ =>
    .unlessError (value.getD null) (.finish (.wrap (value.getD null)))
  | .letStatement _ _ operand, [] => .visit operand
  | .letStatement _ target _, value :: _ =>
    .unlessError (value.getD null) (.finish (.bind target (value.getD null)))
  | .integer _ n, _ => .finish (.result (.integer n))
  | .boolean _ b, _ => .finish (.result (.boolean b))
  | .identifier _ name, _ => .finish (.lookUp name)
  | .prefixExpression _ _ operand, [] => .visit operand
  | .prefixExpression _ op _, right :: _ =>
    .unlessError (right.getD null) (.finish (.result (op.apply (right.getD null))))
  | .infixExpression _ _ first _, [] => .visit first
  | .infixExpression _ _ _ second, [left] => .unlessError (left.getD null) (.visit second)
  | .infixExpression _ op _ _, left :: right :: _ =>
    .unlessError (right.getD null)
      (.finish (.result (op.apply (left.getD null) (right.getD null))))
  | .ifExpression _ condition _ _, [] => .visit condition
  | .ifExpression _ _ consequence alternative, [test] =>
    .unlessError (test.getD null)
      (if (test.getD null).isTruthy then .visit consequence
      else
        match alternative with
        | some other => .visit other
        | none => .finish (.value (some null)))
  | .ifExpression _ _ _ _, _ :: value :: _ => .finish (.value value)
  | .functionLiteral _ parameters body, _ => .finish (.close parameters body)
  | .call _ callee _, [] => .visit callee
  | .call _ _ arguments, function :: done =>
    .unlessError (function.getD null) (.operands null (function.getD null) [] arguments done)

/-! ## What becomes of the evaluator -/

namespace Machine

/-- Make a value with an identity of its own. -/
def make (m : Machine) (content : ValueId → Value) : Value × Machine :=
  (content m.heap.newValue.1, { m with heap := m.heap.newValue.2 })

/-- Enter a node. -/
def enter (m : Machine) (node : Node) (scope : ScopeId) : Machine :=
  { m with
    trace := if m.tracing then m.trace.enter node scope else m.trace
    depth := m.depth + 1 }

/-- Leave a node. -/
def leave (m : Machine) (node : Node) (scope : ScopeId) (value : Option Value) : Machine :=
  { m with
    trace := if m.tracing then m.trace.exit node scope value else m.trace
    depth := m.depth - 1 }

end Machine

/-- Bind the names that parameters spell. -/
def Heap.bindAll (h : Heap) (scope : ScopeId) : List (Node × Value) → Heap
  | [] => h
  | (parameter, argument) :: more =>
    match parameter.name? with
    | some name => (h.set scope name argument).bindAll scope more
    | none => h.bindAll scope more

/-- The heap with the scope of a call: inside the scope of the function, with its parameters
bound. -/
def Heap.openCall (h : Heap) (closure : Closure) (arguments : List Value) : Heap :=
  (h.newScope (some closure.scope)).2.bindAll h.scopes.size (closure.parameters.zip arguments)

/-- The value a node ends with, and the evaluator then. -/
def Ending.apply (scope : ScopeId) (m : Machine) : Ending → Option Value × Machine
  | value v => (v, m)
  | wrap v => (m.make (.returned · v)).map some id
  | bind target v =>
    match target.name? with
    | some name => (none, { m with heap := m.heap.set scope name v })
    | none => (none, m)
  | lookUp name =>
    match m.heap.get? scope name with
    | some v => (some v, m)
    | none => (m.make (.error · (.unboundIdentifier name))).map some id
  | close parameters body => (m.make (.function · ⟨parameters, body, scope⟩)).map some id
  | result (.integer n) => (m.make (.integer · n)).map some id
  | result (.boolean b) => (some (m.boolean b), m)
  | result (.fault fault) => (m.make (.error · fault)).map some id

/-! ## Configurations -/

/-- A node that is entered and not left: the step of its entry, the scope of its evaluation, and
the values of its parts so far. -/
structure Frame where
  opened : Nat
  node : Node
  scope : ScopeId
  done : List (Option Value)

/-- What a configuration is about to do. -/
inductive Control where
  /-- To enter a node. -/
  | enter (node : Node) (scope : ScopeId)
  /-- To let the innermost node go on. -/
  | advance
  /-- Nothing, since the root has ended with this value. -/
  | stop (value : Option Value)

/-- A moment of an evaluation. -/
structure Config where
  machine : Machine
  control : Control
  frames : List Frame

namespace Config

/-- The configuration in which a node is about to be evaluated. -/
def start (m : Machine) (node : Node) (scope : ScopeId) : Config := ⟨m, .enter node scope, []⟩

/-- Hand the value of a node that was left to the node around it. -/
def deliver (m : Machine) (value : Option Value) : List Frame → Config
  | [] => ⟨m, .stop value, []⟩
  | f :: rest => ⟨m, .advance, { f with done := f.done ++ [value] } :: rest⟩

/-- One step. None is left where the limit forbids to enter a node, and when the root has ended. -/
inductive Step : Config → Config → Prop where
  | enter {m : Machine} {node : Node} {scope : ScopeId} {frames : List Frame}
      (allowed : m.depth < m.limit) :
      Step ⟨m, .enter node scope, frames⟩
        ⟨m.enter node scope, .advance, ⟨m.trace.steps, node, scope, []⟩ :: frames⟩
  | visit {m : Machine} {f : Frame} {rest : List Frame} {part : Node}
      (move : f.node.move m.null f.done = .visit part) :
      Step ⟨m, .advance, f :: rest⟩ ⟨m, .enter part f.scope, f :: rest⟩
  | call {m : Machine} {f : Frame} {rest : List Frame} {closure : Closure} {arguments : List Value}
      (move : f.node.move m.null f.done = .call closure arguments) :
      Step ⟨m, .advance, f :: rest⟩
        ⟨{ m with heap := m.heap.openCall closure arguments },
          .enter closure.body m.heap.scopes.size, f :: rest⟩
  | finish {m : Machine} {f : Frame} {rest : List Frame} {ending : Ending}
      (move : f.node.move m.null f.done = .finish ending) :
      Step ⟨m, .advance, f :: rest⟩
        (deliver ((ending.apply f.scope m).2.leave f.node f.scope (ending.apply f.scope m).1)
          (ending.apply f.scope m).1 rest)

/-- Some number of steps. -/
def Reaches : Config → Config → Prop := Relation.ReflTransGen Step

end Config

end TraceTree

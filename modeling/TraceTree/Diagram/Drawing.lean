import TraceTree.Diagram.Layout
import TraceTree.Value.Heap

set_option autoImplicit false

/-! # Drawing an evaluation

The diagram of an evaluation starts from the node entered first. At each node it collects the
events of that very node, and after the fields of the node it draws the value of each exit.

A function value is drawn with its parameters and body, and the nodes of its body can have exits
with function values again, the same function among them. So a body is open to be drawn only while
it is not being drawn already: `bodies` lists the bodies that are still open. A function whose body
is not open is drawn as a cycle. Each body drawn is one fewer open further down, which is why
drawing ends. -/

namespace TraceTree

namespace Value

/-- The numbers of the bodies of the functions that a value is or wraps. -/
def bodies : Value → List NodeId
  | returned _ value => value.bodies
  | function _ closure => [closure.body.id]
  | _ => []

end Value

/-- What a drawing is made from. -/
structure Scene where
  heap : Heap
  trace : Trace
  verbosity : Verbosity

namespace Scene

/-- A scene in which nothing is evaluated. -/
def still (verbosity : Verbosity) : Scene := ⟨.empty, .empty, verbosity⟩

/-- The entries of a node. -/
def entriesOf (s : Scene) (n : Node) : List Visit :=
  (s.trace.events.toList.filter (fun e => e.isEntry && e.node.is n)).map
    (fun e => ⟨e.step, s.trace.scopeNumber e.scope⟩)

/-- The exits of a node. -/
def exitsOf (s : Scene) (n : Node) : List Event :=
  s.trace.events.toList.filter (fun e => !e.isEntry && e.node.is n)

/-- The number of scopes of the trace from which a value is reached. -/
def holders (s : Scene) (v : Value) : Nat := s.trace.scopes.countP (fun t => s.heap.reaches t v)

/-- How often a value is used: the exits that leave it, and the scopes from which it is reached. -/
def uses (s : Scene) (v : Value) : Nat := s.trace.events.countP (·.produces v) + s.holders v

/-- Whether a value is to be numbered. -/
def isShared (s : Scene) (v : Value) : Bool :=
  s.verbosity.sharesValues &&
    (match v with
      | .boolean _ _ | .null _ => false
      | _ => 1 < s.uses v)

/-- The bodies of all functions among the values of the exits. -/
def bodies (s : Scene) : List NodeId :=
  (s.trace.events.toList.flatMap (fun e =>
    match e.value? with
    | some v => v.bodies
    | none => [])).eraseDups

end Scene

/-- Drawing with the values numbered so far at hand; the number of a value is its position. -/
abbrev Draw := StateM (List Value)

namespace Draw

/-- The number that a value has already. -/
def numberOf (v : Value) : Draw (Option Nat) := do
  let numbered ← get
  pure (numbered.findIdx? (·.is v))

/-- Give a value the next number. -/
def assign (v : Value) : Draw Nat := do
  let numbered ← get
  set (numbered ++ [v])
  pure numbered.length

end Draw

/-- Fewer bodies are open once one of them is being drawn. -/
theorem length_filter_ne_lt {bodies : List NodeId} {b : NodeId} (h : b ∈ bodies) :
    (bodies.filter (· != b)).length < bodies.length :=
  List.length_filter_lt_length_iff_exists.mpr ⟨b, h, by simp⟩

mutual

/-- Draw a node. -/
def drawNode (s : Scene) (bodies : List NodeId) (n : Node) : Draw Diagram := do
  let fields ←
    match n with
    | .program _ statements | .block _ statements => do
      let nodes ← drawNodes s bodies statements
      pure [Diagram.field "Statements" nodes]
    | .letStatement _ name value => do
      let target ← drawNode s bodies name
      let bound ← drawNode s bodies value
      pure [.field "Name" [target], .field "Value" [bound]]
    | .returnStatement _ value => do
      let operand ← drawNode s bodies value
      pure [.field "ReturnValue" [operand]]
    | .expressionStatement _ expression => do
      let inner ← drawNode s bodies expression
      pure [.field "Expression" [inner]]
    | .identifier _ name => pure [.field "Value" [.text name]]
    | .boolean _ value => pure [.field "Value" [.text (if value then "true" else "false")]]
    | .integer _ value => pure [.field "Value" [.text (toString value.toInt)]]
    | .prefixExpression _ op right => do
      let operand ← drawNode s bodies right
      pure [.field "Operator" [.operator op.text], .field "Right" [operand]]
    | .infixExpression _ op left right => do
      let first ← drawNode s bodies left
      let second ← drawNode s bodies right
      pure [.field "Left" [first], .field "Operator" [.operator op.text], .field "Right" [second]]
    | .ifExpression _ condition consequence none => do
      let test ← drawNode s bodies condition
      let chosen ← drawNode s bodies consequence
      pure [.field "Condition" [test], .field "Consequence" [chosen],
        .field "Alternative" [.missing]]
    | .ifExpression _ condition consequence (some alternative) => do
      let test ← drawNode s bodies condition
      let chosen ← drawNode s bodies consequence
      let other ← drawNode s bodies alternative
      pure [.field "Condition" [test], .field "Consequence" [chosen],
        .field "Alternative" [other]]
    | .functionLiteral _ parameters body => do
      let names ← drawNodes s bodies parameters
      let code ← drawNode s bodies body
      pure [.field "Parameters" names, .field "Body" [code]]
    | .call _ function arguments => do
      let callee ← drawNode s bodies function
      let operands ← drawNodes s bodies arguments
      pure [.field "Function" [callee], .field "Arguments" operands]
  let exits := s.exitsOf n
  let results ← drawResults s bodies exits
  pure (.node n (s.entriesOf n) (exits.map (fun e => ⟨e.step, s.trace.scopeNumber e.scope⟩))
    (fields ++ results))
termination_by (bodies.length, 1, sizeOf n)

/-- Draw nodes in order. -/
def drawNodes (s : Scene) (bodies : List NodeId) (nodes : List Node) : Draw (List Diagram) :=
  match nodes with
  | [] => pure []
  | n :: more => do
    let first ← drawNode s bodies n
    let others ← drawNodes s bodies more
    pure (first :: others)
termination_by (bodies.length, 1, sizeOf nodes)

/-- Draw the values that exits leave. -/
def drawResults (s : Scene) (bodies : List NodeId) (exits : List Event) : Draw (List Diagram) :=
  match exits with
  | [] => pure []
  | .entry _ _ _ :: more => drawResults s bodies more
  | .exit step _ _ none :: more => do
    let others ← drawResults s bodies more
    pure (.result step .missing :: others)
  | .exit step _ _ (some v) :: more => do
    let drawing ← drawValue s bodies v
    let others ← drawResults s bodies more
    pure (.result step drawing :: others)
termination_by (bodies.length, 0, sizeOf exits)

/-- Draw a value: as a reference if it has a number already, and otherwise with a new number if it
is used in several places. -/
def drawValue (s : Scene) (bodies : List NodeId) (v : Value) : Draw Diagram := do
  let known ← if s.isShared v then Draw.numberOf v else pure none
  match known with
  | some number => pure (.reference v number)
  | none => do
    let number ← if s.isShared v then some <$> Draw.assign v else pure none
    match v with
    | .integer _ n => pure (.value v number [.field "Value" [.text (toString n.toInt)]])
    | .boolean _ b =>
      if s.verbosity.collapsesLeaves then pure (.constant v)
      else pure (.value v number [.field "Value" [.text (if b then "true" else "false")]])
    | .null _ =>
      if s.verbosity.collapsesLeaves then pure (.constant v)
      else pure (.value v number [.field "Value" [.text "null"]])
    | .returned _ inner => do
      let drawing ← drawValue s bodies inner
      pure (.value v number [.field "ReturnValue" [drawing]])
    | .error _ fault =>
      if s.verbosity.collapsesLeaves then pure (.fault v number fault.message)
      else pure (.value v number [.field "Message" [.message fault.message]])
    | .function _ closure =>
      if _open : closure.body.id ∈ bodies then do
        let rest := bodies.filter (· != closure.body.id)
        let names ← drawNodes s rest closure.parameters
        let code ← drawNode s rest closure.body
        pure (.value v number [.field "Parameters" names, .field "Body" [code]])
      else pure (.cycle v number)
termination_by (bodies.length, 0, sizeOf v)
decreasing_by
  all_goals simp_wf
  all_goals first
    | exact Prod.Lex.left _ _ (length_filter_ne_lt _open)
    | (apply Prod.Lex.right; apply Prod.Lex.right; omega)

end

namespace Scene

/-- The diagram of a scene, if anything is evaluated in it. -/
def diagram? (s : Scene) : Option Diagram :=
  s.trace.root?.map (fun root => (drawNode s s.bodies root []).1)

/-- The tree of an evaluation. -/
def evaluationTree (s : Scene) (m : Markup) : String :=
  match s.diagram? with
  | some d => d.write m
  | none => m.tree m.missing

end Scene

/-- The tree of a piece of syntax, with nothing about its evaluation. -/
def Node.syntaxTree (n : Node) (verbosity : Verbosity) (m : Markup) : String :=
  (drawNode (.still verbosity) [] n []).1.write m

end TraceTree

import TraceTree.Proofs.Diagram.Coverage

set_option autoImplicit false

/-! # The recursion of drawing

A node is drawn field by field, and then the values of its exits (`drawNode_apply`). A value is drawn
as a reference if it has a number, and otherwise by its kind, with a new number if it is shared
(`drawValue_apply`). What is said of drawings by recursion is said of fields and of kinds of values
then. -/

namespace TraceTree

theorem Draw.bind_apply {α β : Type} (x : Draw α) (f : α → Draw β) (seen : List Value) :
    (x >>= f) seen = f (x seen).1 (x seen).2 := rfl

theorem Draw.numberOf_apply (v : Value) (seen : List Value) :
    Draw.numberOf v seen = (seen.findIdx? (·.is v), seen) := rfl

/-! ## Nodes -/

/-- What stands in a field of a drawn node. -/
inductive Content where
  | leaf (d : Diagram)
  | child (n : Node)
  | list (nodes : List Node)

/-- The drawn fields of a node, in their order. -/
def Node.contents : Node → List (String × Content)
  | program _ statements | block _ statements => [("Statements", .list statements)]
  | letStatement _ name value => [("Name", .child name), ("Value", .child value)]
  | returnStatement _ value => [("ReturnValue", .child value)]
  | expressionStatement _ expression => [("Expression", .child expression)]
  | identifier _ name => [("Value", .leaf (.text name))]
  | boolean _ value => [("Value", .leaf (.text (if value then "true" else "false")))]
  | integer _ value => [("Value", .leaf (.text (toString value.toInt)))]
  | prefixExpression _ op right =>
    [("Operator", .leaf (.operator op.text)), ("Right", .child right)]
  | infixExpression _ op left right =>
    [("Left", .child left), ("Operator", .leaf (.operator op.text)), ("Right", .child right)]
  | ifExpression _ condition consequence none =>
    [("Condition", .child condition), ("Consequence", .child consequence),
      ("Alternative", .leaf .missing)]
  | ifExpression _ condition consequence (some alternative) =>
    [("Condition", .child condition), ("Consequence", .child consequence),
      ("Alternative", .child alternative)]
  | functionLiteral _ parameters body => [("Parameters", .list parameters), ("Body", .child body)]
  | call _ function arguments => [("Function", .child function), ("Arguments", .list arguments)]

/-- The nodes that stand in a field. -/
def Content.nodes : Content → List Node
  | leaf _ => []
  | child n => [n]
  | list nodes => nodes

theorem Node.flatMap_contents (n : Node) : n.contents.flatMap (·.2.nodes) = n.children := by
  cases n with
  | ifExpression id condition consequence alternative => cases alternative <;> rfl
  | _ => simp [contents, Content.nodes, children]

/-- A leaf is a word or stands for what is absent. -/
theorem Node.leaf_of_contents {n : Node} {name : String} {d : Diagram}
    (h : (name, .leaf d) ∈ n.contents) :
    (∃ content, d = .text content) ∨ (∃ spelling, d = .operator spelling) ∨ d = .missing := by
  cases n with
  | ifExpression id condition consequence alternative =>
    cases alternative <;> simp [contents] at h
    exact Or.inr (Or.inr h.2)
  | identifier id content =>
    simp [contents] at h
    exact Or.inl ⟨_, h.2⟩
  | boolean id value =>
    simp [contents] at h
    exact Or.inl ⟨_, h.2⟩
  | integer id value =>
    simp [contents] at h
    exact Or.inl ⟨_, h.2⟩
  | prefixExpression id op right =>
    simp [contents] at h
    exact Or.inr (Or.inl ⟨_, h.2⟩)
  | infixExpression id op left right =>
    simp [contents] at h
    exact Or.inr (Or.inl ⟨_, h.2⟩)
  | _ => simp [contents] at h

theorem Node.sizeOf_child_lt {n child : Node} {name : String}
    (h : (name, .child child) ∈ n.contents) : sizeOf child < sizeOf n := by
  cases n with
  | ifExpression id condition consequence alternative =>
    cases alternative <;> simp [contents] at h <;> grind [ifExpression.sizeOf_spec]
  | _ => simp [contents] at h <;> grind

theorem Node.sizeOf_list_lt {n : Node} {nodes : List Node} {name : String}
    (h : (name, .list nodes) ∈ n.contents) : sizeOf nodes < sizeOf n := by
  cases n with
  | ifExpression id condition consequence alternative =>
    cases alternative <;> simp [contents] at h
  | _ => simp [contents] at h <;> grind

/-- Draw what stands in a field. -/
def drawContent (s : Scene) (bodies : List NodeId) : Content → Draw (List Diagram)
  | .leaf d => pure [d]
  | .child n => do
    let d ← drawNode s bodies n
    pure [d]
  | .list nodes => drawNodes s bodies nodes

/-- Draw fields in order. -/
def drawFields (s : Scene) (bodies : List NodeId) : List (String × Content) → Draw (List Diagram)
  | [] => pure []
  | (name, content) :: more => do
    let parts ← drawContent s bodies content
    let others ← drawFields s bodies more
    pure (.field name parts :: others)

/-- **A node is drawn field by field,** and then the values of its exits. -/
theorem drawNode_apply (s : Scene) (bodies : List NodeId) (n : Node) (seen : List Value) :
    drawNode s bodies n seen =
      let fields := drawFields s bodies n.contents seen
      let results := drawResults s bodies (s.exitsOf n) fields.2
      (.node n (s.entriesOf n) (s.exitVisits n) (fields.1 ++ results.1), results.2) := by
  rw [drawNode.eq_def]
  cases n with
  | ifExpression id condition consequence alternative => cases alternative <;> rfl
  | _ => rfl

/-! ## Values -/

/-- Draw a value that has no number yet by its kind; `number` is the one it gets. -/
def drawContentOf (s : Scene) (bodies : List NodeId) (v : Value) (number : Option Nat) :
    Draw Diagram :=
  match v with
  | .integer _ n => pure (.value v number [.field "Value" [.text (toString n.toInt)]])
  | .boolean _ b =>
    if s.verbosity.collapsesLeaves then pure (.constant v)
    else pure (.value v number [.field "Value" [.text (if b then "true" else "false")]])
  | .null _ =>
    if s.verbosity.collapsesLeaves then pure (.constant v)
    else pure (.value v number [.field "Value" [.text "null"]])
  | .returned _ inner => do
    let drawing ← drawValue s bodies inner
    pure (.value v number [.field "ReturnValue" [drawing]])
  | .error _ fault =>
    if s.verbosity.collapsesLeaves then pure (.fault v number fault.message)
    else pure (.value v number [.field "Message" [.message fault.message]])
  | .function _ closure =>
    if closure.body.id ∈ bodies then do
      let rest := bodies.filter (· != closure.body.id)
      let names ← drawNodes s rest closure.parameters
      let code ← drawNode s rest closure.body
      pure (.value v number [.field "Parameters" names, .field "Body" [code]])
    else pure (.cycle v number)

/-- **How a value is drawn:** as a reference to its number, or by its kind. -/
theorem drawValue_apply (s : Scene) (bodies : List NodeId) (v : Value) (seen : List Value) :
    drawValue s bodies v seen =
      if s.isShared v then
        match seen.findIdx? (·.is v) with
        | some number => (.reference v number, seen)
        | none => drawContentOf s bodies v (some seen.length) (seen ++ [v])
      else drawContentOf s bodies v none seen := by
  have hcontent : drawValue s bodies v = (do
      let known ← if s.isShared v then Draw.numberOf v else pure none
      match known with
      | some number => pure (.reference v number)
      | none => do
        let number ← if s.isShared v then some <$> Draw.assign v else pure none
        drawContentOf s bodies v number) := by
    rw [drawValue.eq_def]
    cases v <;> rfl
  rw [hcontent]
  split
  · rw [Draw.bind_apply, Draw.numberOf_apply]
    cases seen.findIdx? (·.is v) <;> rfl
  · rfl

end TraceTree

import TraceTree.Proofs.Trace.Later
import TraceTree.Proofs.Trace.Recording

set_option autoImplicit false

/-! # Evaluations that happen later

On a heap with something in it already an evaluation does what it does on one without: each step of it
is a step later (`Config.Step.later`). The depth and the limit are no numbers of anything that is made,
so they are the same, and an evaluation is given up later where it is given up before. -/

namespace TraceTree

/-! ## Moves -/

/-- The same end, later. -/
def Ending.later (p : Past) : Ending → Ending
  | value v => value (v.map (Value.later p))
  | wrap v => wrap (v.later p)
  | bind target v => bind (target.later p.nodes) (v.later p)
  | lookUp name => lookUp name
  | close parameters body => close (Node.laterAll p.nodes parameters) (body.later p.nodes)
  | result r => result r

/-- The same move, later. -/
def Move.later (p : Past) : Move → Move
  | visit part => visit (part.later p.nodes)
  | call closure arguments => call (closure.later p) (arguments.map (Value.later p))
  | finish ending => finish (ending.later p)

namespace Move

variable (p : Past)

theorem later_unlessError (value : Value) (move : Move) :
    (unlessError value move).later p = unlessError (value.later p) (move.later p) := by
  unfold unlessError
  rw [Value.isError_later]
  split <;> rfl

theorem later_sequence (close : Option Value → Option Value)
    (hclose : ∀ v, (close v).map (Value.later p) = close (v.map (Value.later p)))
    (last : Option Value) (statements : List Node) (done : List (Option Value)) :
    (sequence close last statements done).later p =
      sequence close (last.map (Value.later p)) (Node.laterAll p.nodes statements)
        (done.map (·.map (Value.later p))) := by
  induction statements generalizing last done with
  | nil => exact congrArg (fun v => finish (.value v)) (hclose last)
  | cons statement more ih =>
    cases done with
    | nil =>
      simp only [List.map_nil, Node.laterAll, sequence, Value.any_endsSequence_later]
      split
      · exact congrArg (fun v => finish (.value v)) (hclose last)
      · rfl
    | cons value done => exact ih value done

variable (null : Value)

theorem getD_later (v : Option Value) :
    (v.map (Value.later p)).getD (null.later p) = (v.getD null).later p := by
  cases v <;> rfl

theorem later_application (function : Value) (arguments : List Value)
    (done : List (Option Value)) :
    (application null function arguments done).later p =
      application (null.later p) (function.later p) (arguments.map (Value.later p))
        (done.map (·.map (Value.later p))) := by
  cases done with
  | nil =>
    cases function with
    | function id closure =>
      have harity : (closure.later p).parameters.length = closure.parameters.length := by
        simp [Closure.later, Node.laterAll_eq_map]
      simp only [List.map_nil, application, Value.later, List.length_map, harity]
      split <;> rfl
    | _ => rfl
  | cons value done =>
    rw [List.map_cons, application, application, getD_later, Value.unwrapped_later]
    rfl

theorem later_operands (function : Value) (values : List Value) (operands : List Node)
    (done : List (Option Value)) :
    (Move.operands null function values operands done).later p =
      Move.operands (null.later p) (function.later p) (values.map (Value.later p))
        (Node.laterAll p.nodes operands) (done.map (·.map (Value.later p))) := by
  induction operands generalizing values done with
  | nil => exact later_application p null function values done
  | cons operand more ih =>
    cases done with
    | nil => rfl
    | cons value done =>
      rw [List.map_cons, Node.laterAll, Move.operands, Move.operands, later_unlessError, getD_later,
        ih]
      simp

end Move

/-- **The move of a node, later.** Only operations compare values, and they compare identities of
which all of one kind are greater by the same amount. -/
theorem Node.later_move (p : Past) (n : Node) (null : Value) (done : List (Option Value)) :
    (n.move null done).later p =
      (n.later p.nodes).move (null.later p) (done.map (·.map (Value.later p))) := by
  cases n with
  | program id statements =>
    exact Move.later_sequence p _ (fun v => by cases v <;> simp) none statements done
  | block id statements =>
    exact Move.later_sequence p (fun value => value) (fun _ => rfl) none statements done
  | expressionStatement id expression => cases done <;> rfl
  | returnStatement id operand | letStatement id target operand =>
    cases done with
    | nil => rfl
    | cons value done =>
      simp only [later, move, List.map_cons, Move.later_unlessError, Move.getD_later]
      rfl
  | integer id n | boolean id b | identifier id name | functionLiteral id parameters body => rfl
  | prefixExpression id op operand =>
    cases done with
    | nil => rfl
    | cons right done =>
      simp only [later, move, List.map_cons, Move.later_unlessError, Move.getD_later,
        PrefixOp.apply_later]
      rfl
  | infixExpression id op first second =>
    rcases done with _ | ⟨left, _ | ⟨right, done⟩⟩
    · rfl
    · simp only [later, move, List.map_cons, List.map_nil, Move.later_unlessError,
        Move.getD_later]
      rfl
    · simp only [later, move, List.map_cons, Move.later_unlessError, Move.getD_later,
        InfixOp.apply_later]
      rfl
  | ifExpression id condition consequence alternative =>
    rw [later_ifExpression]
    rcases done with _ | ⟨test, _ | ⟨value, done⟩⟩
    · rfl
    · simp only [move, List.map_cons, List.map_nil, Move.later_unlessError, Move.getD_later,
        Value.isTruthy_later]
      congr 1
      split
      · rfl
      · cases alternative <;> rfl
    · rfl
  | call id callee operands =>
    cases done with
    | nil => rfl
    | cons function done =>
      simp only [later, move, List.map_cons, Move.later_unlessError, Move.getD_later,
        Move.later_operands, List.map_nil]

/-! ## Evaluators -/

/-- The same evaluator, made later. -/
def Machine.later (p : Past) (m : Machine) : Machine :=
  { m with
    heap := m.heap.later p
    trace := m.trace.later p
    number := p.heap.evaluators + m.number }

theorem Machine.later_new (p : Past) (heap : Heap) (limit : Nat) (tracing : Bool) :
    (new heap limit tracing).later p = new (heap.later p) limit tracing := by
  simp [new, later, Heap.later, Trace.later, Trace.empty, Nat.add_assoc]

theorem Machine.later_enter (p : Past) (m : Machine) (node : Node) (scope : ScopeId) :
    (m.enter node scope).later p = (m.later p).enter (node.later p.nodes) (p.scope scope) := by
  have htrace := m.trace.enter_later p node scope
  simp only [enter, later, ← htrace]
  split <;> rfl

theorem Machine.later_leave (p : Past) (m : Machine) (node : Node) (scope : ScopeId)
    (value : Option Value) :
    (m.leave node scope value).later p =
      (m.later p).leave (node.later p.nodes) (p.scope scope) (value.map (Value.later p)) := by
  have htrace := m.trace.exit_later p node scope value
  simp only [leave, later, ← htrace]
  split <;> rfl

/-- What a node ends with later. -/
theorem Ending.later_apply (p : Past) (ending : Ending) (scope : ScopeId) {m : Machine}
    (hord : ∀ s outer, m.heap.outer? s = some outer → outer < s) :
    (ending.later p).apply (p.scope scope) (m.later p) =
      ((ending.apply scope m).1.map (Value.later p), (ending.apply scope m).2.later p) := by
  cases ending with
  | bind target v =>
    simp only [later, apply, Node.name?_later]
    cases target.name? with
    | none => rfl
    | some name =>
      simp only [Machine.later, Heap.later_set]
      rfl
  | lookUp name =>
    simp only [later, apply]
    rw [show (m.later p).heap.get? (p.scope scope) name = _ from Heap.get?_later p scope hord name]
    cases m.heap.get? scope name <;> rfl
  | result r => cases r <;> rfl
  | _ => rfl

/-! ## Runs -/

/-- The same control, later. -/
def Control.later (p : Past) : Control → Control
  | enter node scope => enter (node.later p.nodes) (p.scope scope)
  | advance => advance
  | stop value => stop (value.map (Value.later p))

/-- The same frame, later. -/
def Frame.later (p : Past) (f : Frame) : Frame where
  opened := f.opened
  node := f.node.later p.nodes
  scope := p.scope f.scope
  done := f.done.map (·.map (Value.later p))

/-- The same configuration, later. -/
def Config.later (p : Past) (c : Config) : Config :=
  ⟨c.machine.later p, c.control.later p, c.frames.map (Frame.later p)⟩

namespace Config

variable (p : Past) {c c' : Config}

theorem later_deliver (m : Machine) (value : Option Value) (frames : List Frame) :
    (deliver m value frames).later p =
      deliver (m.later p) (value.map (Value.later p)) (frames.map (Frame.later p)) := by
  cases frames with
  | nil => rfl
  | cons f rest => simp [deliver, later, Control.later, Frame.later]

/-- **A step happens later** as it does before. -/
theorem Step.later (h : c.Step c')
    (hord : ∀ s outer, c.machine.heap.outer? s = some outer → outer < s) :
    (c.later p).Step (c'.later p) := by
  -- what a node does next is the same
  have hmove : ∀ {m : Machine} {f : Frame} {move : Move}, f.node.move m.null f.done = move →
      (f.later p).node.move (m.later p).null (f.later p).done = move.later p := by
    intro m f move hmove
    rw [← hmove, f.node.later_move p m.null f.done]
    rfl
  cases h with
  | @enter m node scope frames allowed =>
    have henter : Step ⟨m.later p, .enter (node.later p.nodes) (p.scope scope),
        frames.map (Frame.later p)⟩ _ := .enter allowed
    rw [← Machine.later_enter] at henter
    rw [show (m.later p).trace.steps = m.trace.steps from m.trace.steps_later p] at henter
    exact henter
  | visit move => exact .visit (hmove move)
  | @call m f rest closure arguments move =>
    have hcall : Step ⟨m.later p, .advance, f.later p :: rest.map (Frame.later p)⟩ _ :=
      .call (hmove move)
    rw [show (m.later p).heap = m.heap.later p from rfl, ← Heap.later_openCall,
      Heap.size_later] at hcall
    exact hcall
  | @finish m f rest ending move =>
    have hfinish : Step ⟨m.later p, .advance, f.later p :: rest.map (Frame.later p)⟩ _ :=
      .finish (hmove move)
    rw [show (f.later p).scope = p.scope f.scope from rfl, Ending.later_apply p ending _ hord,
      show (f.later p).node = f.node.later p.nodes from rfl, ← Machine.later_leave] at hfinish
    rw [later_deliver]
    exact hfinish

theorem Reaches.later {m : Machine} (hsound : m.heap.Sound) {root : Node} {scope : ScopeId}
    (hs : scope < m.heap.scopes.size) (hreach : (start m root scope).Reaches c) :
    (start (m.later p) (root.later p.nodes) (p.scope scope)).Reaches (c.later p) := by
  induction hreach with
  | refl => exact .refl
  | tail hreach hstep ih =>
    exact ih.tail (hstep.later p (Reaches.allocated hsound hs hreach).1.sound.outer_lt)

theorem Ended.later (h : c.Ended) : (c.later p).Ended := by
  rcases h with ⟨value, hstop⟩ | ⟨⟨node, scope, henter⟩, hlimit⟩
  · exact Or.inl ⟨value.map (Value.later p), by rw [Config.later, hstop]; rfl⟩
  · exact Or.inr ⟨⟨node.later p.nodes, p.scope scope, by rw [Config.later, henter]; rfl⟩, hlimit⟩

theorem outcome_later (c : Config) (depth : Nat) :
    (c.later p).outcome depth =
      ((c.outcome depth).1.map (·.map (Value.later p)), (c.outcome depth).2.later p) := by
  obtain ⟨m, control, frames⟩ := c
  cases control <;> rfl

end Config

/-- **What an evaluation comes to later.** -/
theorem Machine.eval_later (p : Past) {m : Machine} (hsound : m.heap.Sound) (node : Node)
    {scope : ScopeId} (hs : scope < m.heap.scopes.size) :
    (m.later p).eval (node.later p.nodes) (p.scope scope) =
      ((m.eval node scope).1.map (·.map (Value.later p)), (m.eval node scope).2.later p) := by
  obtain ⟨c, hreach, hended, _⟩ := m.eval_ended node scope
  have hlater : (m.later p).eval (node.later p.nodes) (p.scope scope) =
      (c.later p).outcome m.depth :=
    eval_eq_outcome (Config.Reaches.later p hsound hs hreach) (hended.later p)
  rw [hlater, eval_eq_outcome hreach hended]
  exact c.outcome_later p m.depth

end TraceTree

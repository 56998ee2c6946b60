import TraceTree.Proofs.Eval.Stepping

set_option autoImplicit false

/-! # The steps lead where the evaluation does

`Machine.eval_steps` ties the steps of a configuration to `Machine.eval`: if the evaluation has a
value, the steps from its start stop with that value and that evaluator, and if it is given up, the
steps get stuck before the node that the limit forbids to enter.

The proof follows the recursion of `evalWithin` on the depth that remains. Around it, `Frame.Follows`
says that an action of the evaluator does what the steps do while a frame is the innermost one; it
has one rule for each kind of move, and `Node.evaluate` is taken apart by these rules. -/

namespace TraceTree

/-! ## Actions -/

theorem Eval.bind_apply {α β : Type} (act : Eval α) (next : α → Eval β) (m : Machine) :
    (act >>= next) m =
      match act m with
      | (.ok a, m') => next a m'
      | (.error o, m') => (.error o, m') := by
  simp only [bind, ExceptT.bind, ExceptT.mk, StateT.bind, ExceptT.bindCont]
  rcases act m with ⟨_ | _, _⟩ <;> rfl

theorem Eval.orNull_apply (value : Option Value) (m : Machine) :
    Eval.orNull value m = (.ok (value.getD m.null), m) := by
  cases value <;> rfl

theorem Eval.map_some_apply (act : Eval Value) (m : Machine) :
    (some <$> act) m =
      match act m with
      | (.ok v, m') => (.ok (some v), m')
      | (.error o, m') => (.error o, m') := by
  rw [map_eq_pure_bind, Eval.bind_apply]
  rcases act m with ⟨_ | _, _⟩ <;> rfl

/-! ## Ends of evaluations -/

/-- Two evaluators that differ in their heap and their trace alone. -/
structure Machine.SameSetup (m m' : Machine) : Prop where
  depth : m'.depth = m.depth
  limit : m'.limit = m.limit
  tracing : m'.tracing = m.tracing
  number : m'.number = m.number

theorem Machine.SameSetup.trans {m₁ m₂ m₃ : Machine} (h : m₁.SameSetup m₂) (h' : m₂.SameSetup m₃) :
    m₁.SameSetup m₃ :=
  ⟨h'.depth.trans h.depth, h'.limit.trans h.limit, h'.tracing.trans h.tracing,
    h'.number.trans h.number⟩

/-- **What a node ends with touches the heap alone:** it makes one value, or binds one name in the
scope of the node, or does neither. -/
theorem Ending.machine_apply (holds : Machine → Prop) {scope : ScopeId} {m : Machine}
    (same : holds m) (made : holds { m with heap := m.heap.newValue.2 })
    (bound : ∀ name v, holds { m with heap := m.heap.set scope name v }) (ending : Ending) :
    holds (ending.apply scope m).2 := by
  cases ending with
  | value v => exact same
  | wrap v => exact made
  | bind target v =>
    rw [Ending.apply]
    split
    · exact bound _ v
    · exact same
  | lookUp name =>
    rw [Ending.apply]
    split
    · exact same
    · exact made
  | close parameters body => exact made
  | result r =>
    cases r with
    | integer n => exact made
    | boolean b => exact same
    | fault fault => exact made

theorem Ending.sameSetup_apply (ending : Ending) (scope : ScopeId) (m : Machine) :
    m.SameSetup (ending.apply scope m).2 :=
  ending.machine_apply m.SameSetup ⟨rfl, rfl, rfl, rfl⟩ ⟨rfl, rfl, rfl, rfl⟩
    fun _ _ => ⟨rfl, rfl, rfl, rfl⟩

namespace Config

/-- The limit forbids to enter the node that is to be entered. -/
def Stuck (c : Config) : Prop :=
  (∃ node scope, c.control = .enter node scope) ∧ c.machine.limit ≤ c.machine.depth

/-- The overflow that a stuck configuration reports. -/
def overflow (c : Config) : Overflow := ⟨c.machine.depth, c.machine.limit⟩

/-- The steps from a configuration of the evaluator `m` come to an outcome of an action: to the
configuration `final` of its value, or to a stuck one. -/
def EndsAs (c : Config) (m : Machine) (final : Option Value → Machine → Config) :
    Except Overflow (Option Value) × Machine → Prop
  | (.ok value, m') => c.Reaches (final value m') ∧ m.SameSetup m'
  | (.error o, m') =>
    ∃ c', c.Reaches c' ∧ c'.Stuck ∧ o = c'.overflow ∧ m' = { c'.machine with depth := m.depth }

variable {c c₁ : Config} {m : Machine} {final : Option Value → Machine → Config}
  {outcome : Except Overflow (Option Value) × Machine}

/-- A step in front changes nothing about the end. -/
theorem EndsAs.head (h : c.Step c₁) (he : c₁.EndsAs m final outcome) : c.EndsAs m final outcome := by
  rcases outcome with ⟨o | value, m'⟩
  · obtain ⟨c', hr, hc⟩ := he
    exact ⟨c', hr.head h, hc⟩
  · exact ⟨he.1.head h, he.2⟩

/-- An action may change heap and trace before it starts to evaluate. -/
theorem EndsAs.ofSameSetup {m₁ : Machine} (h : m.SameSetup m₁) (he : c.EndsAs m₁ final outcome) :
    c.EndsAs m final outcome := by
  rcases outcome with ⟨o | value, m'⟩
  · obtain ⟨c', hr, hc, ho, hm⟩ := he
    exact ⟨c', hr, hc, ho, by rw [hm, h.depth]⟩
  · exact ⟨he.1, h.trans he.2⟩

/-- Ends of actions compose like the actions. -/
theorem EndsAs.bind {act : Eval (Option Value)} {next : Option Value → Eval (Option Value)}
    {middle : Option Value → Machine → Config} (he : c.EndsAs m middle (act m))
    (hn : ∀ value m', m.SameSetup m' → (middle value m').EndsAs m' final (next value m')) :
    c.EndsAs m final ((act >>= next) m) := by
  rw [Eval.bind_apply]
  rcases hact : act m with ⟨o | value, m'⟩
  · rw [hact] at he
    exact he
  · rw [hact] at he
    obtain ⟨hreach, hsame⟩ := he
    have hend := hn value m' hsame
    show c.EndsAs m final (next value m')
    rcases hnext : next value m' with ⟨o | value', m''⟩
    · rw [hnext] at hend
      obtain ⟨c', hr, hs, ho, hm⟩ := hend
      exact ⟨c', hreach.trans hr, hs, ho, by rw [hm, hsame.depth]⟩
    · rw [hnext] at hend
      exact ⟨hreach.trans hend.1, hsame.trans hend.2⟩

end Config

/-- The null of the evaluator with a number. -/
def nullOf (number : Nat) : Value := .null (.shared number .null)

theorem Machine.null_eq {m : Machine} {number : Nat} (h : m.number = number) :
    m.null = nullOf number := by
  rw [Machine.null, h, nullOf]

/-! ## Actions that follow the steps of a frame -/

section Follows

variable {remaining number : Nat} {eval : Node → ScopeId → Eval (Option Value)} {f : Frame}

/-- Evaluating a node comes to what the steps from entering it come to, with `remaining` nodes
still allowed inside one another. -/
def Simulates (remaining : Nat) (eval : Node → ScopeId → Eval (Option Value)) : Prop :=
  ∀ (node : Node) (scope : ScopeId) (m : Machine) (frames : List Frame),
    m.limit - m.depth = remaining →
      Config.EndsAs ⟨m, .enter node scope, frames⟩ m
        (fun value m' => Config.deliver m' value frames) (eval node scope m)

/-- An action comes to what the steps come to while `f` is the innermost frame. -/
def Frame.Follows (remaining number : Nat) (f : Frame) (act : Eval (Option Value)) : Prop :=
  ∀ (m : Machine) (rest : List Frame), m.limit - m.depth = remaining → m.number = number →
    Config.EndsAs ⟨m, .advance, f :: rest⟩ m
      (fun value m' => Config.deliver (m'.leave f.node f.scope value) value rest) (act m)

/-- Actions that do the same follow the same steps. -/
theorem Frame.Follows.congr {act act' : Eval (Option Value)} (h : ∀ m, act' m = act m)
    (hact : f.Follows remaining number act) : f.Follows remaining number act' := by
  intro m rest hr hn
  rw [h]
  exact hact m rest hr hn

/-- The frame after one more part has been evaluated. -/
def Frame.received (f : Frame) (value : Option Value) : Frame := { f with done := f.done ++ [value] }

/-- Evaluating a field. -/
theorem Frame.Follows.visit {part : Node} {next : Option Value → Eval (Option Value)}
    (heval : Simulates remaining eval) (hmove : f.node.move (nullOf number) f.done = .visit part)
    (hnext : ∀ value, (f.received value).Follows remaining number (next value)) :
    f.Follows remaining number (eval part f.scope >>= next) := by
  intro m rest hr hn
  have hmove' : f.node.move m.null f.done = .visit part := by rw [Machine.null_eq hn, hmove]
  refine Config.EndsAs.head (.visit hmove')
    (Config.EndsAs.bind (heval part f.scope m (f :: rest) hr) ?_)
  intro value m' hsame
  exact hnext value m' rest (by rw [hsame.limit, hsame.depth, hr]) (hsame.number.trans hn)

/-- Evaluating a field for its value, where none counts as null. -/
theorem Frame.Follows.visitValue {part : Node} {next : Value → Eval (Option Value)}
    (heval : Simulates remaining eval) (hmove : f.node.move (nullOf number) f.done = .visit part)
    (hnext : ∀ value : Option Value,
      (f.received value).Follows remaining number (next (value.getD (nullOf number)))) :
    f.Follows remaining number ((eval part f.scope >>= Eval.orNull) >>= next) := by
  rw [bind_assoc]
  refine Frame.Follows.visit heval hmove fun value m rest hr hn => ?_
  rw [Eval.bind_apply, Eval.orNull_apply, Machine.null, hn]
  exact hnext value m rest hr hn

/-- Ending. -/
theorem Frame.Follows.finish {ending : Ending} {act : Eval (Option Value)}
    (hmove : f.node.move (nullOf number) f.done = .finish ending)
    (hact : ∀ m : Machine, m.number = number →
      act m = (.ok (ending.apply f.scope m).1, (ending.apply f.scope m).2)) :
    f.Follows remaining number act := by
  intro m rest hr hn
  rw [hact m hn]
  have hmove' : f.node.move m.null f.done = .finish ending := by rw [Machine.null_eq hn, hmove]
  exact ⟨Relation.ReflTransGen.single (.finish hmove'), ending.sameSetup_apply f.scope m⟩

/-- Ending with a value there is. -/
theorem Frame.Follows.pure {value : Option Value}
    (hmove : f.node.move (nullOf number) f.done = .finish (.value value)) :
    f.Follows remaining number (Pure.pure value) :=
  Frame.Follows.finish hmove fun _ _ => rfl

/-- Ending with the value for what an operation gives. -/
theorem Frame.Follows.ofResult (result : Result)
    (hmove : f.node.move (nullOf number) f.done = .finish (.result result)) :
    f.Follows remaining number (some <$> Eval.ofResult result) := by
  refine Frame.Follows.finish hmove fun m _ => ?_
  rw [Eval.map_some_apply]
  cases result <;> rfl

/-- Ending with a fault among the values of the parts, and going on otherwise. -/
theorem Frame.Follows.unlessError {value : Value} {move : Move} {act : Eval (Option Value)}
    (hmove : f.node.move (nullOf number) f.done = .unlessError value move)
    (hact : value.isError = false → f.node.move (nullOf number) f.done = move →
      f.Follows remaining number act) :
    f.Follows remaining number
      (if value.isError = true then Pure.pure (some value) else act) := by
  unfold Move.unlessError at hmove
  split
  · next h =>
    rw [if_pos h] at hmove
    exact Frame.Follows.pure hmove
  · next h =>
    rw [if_neg h] at hmove
    exact hact (Bool.eq_false_iff.mpr h) hmove

/-! ## The kinds of nodes -/

/-- The statements left of a sequence, after one with the value `last`. -/
theorem Frame.Follows.statements {close : Option Value → Option Value}
    (heval : Simulates remaining eval) (statements : List Node) (last : Option Value) (f : Frame)
    (hlast : last.any Value.endsSequence = false)
    (hmove : ∀ done, f.node.move (nullOf number) (f.done ++ done) =
      .sequence close last statements done) :
    f.Follows remaining number
      (evalStatements (eval · f.scope) last statements >>= fun value => Pure.pure (close value)) := by
  induction statements generalizing last f with
  | nil =>
    rw [evalStatements, pure_bind]
    refine Frame.Follows.pure ?_
    rw [← List.append_nil f.done, hmove]
    rfl
  | cons statement more ih =>
    rw [evalStatements, bind_assoc]
    refine Frame.Follows.visit heval ?_ fun value => ?_
    · rw [← List.append_nil f.done, hmove, Move.sequence, if_neg (by simp [hlast])]
    · have hnext : ∀ done, (f.received value).node.move (nullOf number)
          ((f.received value).done ++ done) = .sequence close value more done := by
        intro done
        show f.node.move _ ((f.done ++ [value]) ++ done) = _
        rw [List.append_assoc, hmove]
        rfl
      by_cases hends : value.any Value.endsSequence = true
      · rw [if_pos hends, pure_bind]
        refine Frame.Follows.pure ?_
        rw [← List.append_nil (f.received value).done, hnext]
        cases more with
        | nil => rfl
        | cons next more => rw [Move.sequence, if_pos hends]
      · rw [if_neg hends]
        exact ih value (f.received value) (Bool.eq_false_iff.mpr hends) hnext

theorem bindParameters_apply (scope : ScopeId) (pairs : List (Node × Value)) (m : Machine) :
    bindParameters scope pairs m = (.ok (), { m with heap := m.heap.bindAll scope pairs }) := by
  induction pairs generalizing m with
  | nil => rfl
  | cons pair more ih =>
    obtain ⟨parameter, argument⟩ := pair
    rw [bindParameters, Heap.bindAll]
    cases parameter.name? with
    | none => exact ih m
    | some name => exact ih { m with heap := m.heap.set scope name argument }

/-- The call of a function, from the evaluation of its body on. -/
theorem applyBody_apply {α : Type} (next : Value → Eval α) (closure : Closure)
    (arguments : List Value) (m : Machine) :
    ((do
        let scope ← Eval.newScope closure.scope
        bindParameters scope (closure.parameters.zip arguments)
        let result ← eval closure.body scope
        let value ← Eval.orNull result
        pure value.unwrapped) >>= next) m =
      (eval closure.body m.heap.scopes.size >>= fun result =>
        Eval.orNull result >>= fun value => next value.unwrapped)
        { m with heap := m.heap.openCall closure arguments } := by
  simp only [bind_assoc, pure_bind]
  rw [Eval.bind_apply]
  show (bindParameters m.heap.scopes.size _ >>= _) _ = _
  rw [Eval.bind_apply, bindParameters_apply]
  rfl

/-- Calling a function with its arguments. -/
theorem Frame.Follows.application (heval : Simulates remaining eval) (function : Value)
    (arguments : List Value)
    (hmove : ∀ done, f.node.move (nullOf number) (f.done ++ done) =
      .application (nullOf number) function arguments done) :
    f.Follows remaining number (some <$> applyFunction eval function arguments) := by
  have hnow := hmove []
  rw [List.append_nil] at hnow
  unfold applyFunction
  split
  · next id closure =>
    split
    · next harity =>
      rw [Move.application, if_pos harity] at hnow
      intro m rest hr hn
      let opened : Machine := { m with heap := m.heap.openCall closure arguments }
      have hmove' : f.node.move m.null f.done = .call closure arguments := by
        rw [Machine.null_eq hn, hnow]
      have hopened : m.SameSetup opened := ⟨rfl, rfl, rfl, rfl⟩
      refine Config.EndsAs.head (.call hmove') (Config.EndsAs.ofSameSetup hopened ?_)
      rw [map_eq_pure_bind, applyBody_apply]
      refine Config.EndsAs.bind (heval closure.body m.heap.scopes.size opened (f :: rest) hr) ?_
      intro result m' hsame
      rw [Eval.bind_apply, Eval.orNull_apply, Machine.null, hsame.number.trans hn]
      refine Frame.Follows.pure (f := f.received result) ?_ m' rest
        (by rw [hsame.limit, hsame.depth, hr]) (hsame.number.trans hn)
      exact hmove [result]
    · next harity =>
      rw [Move.application, if_neg harity] at hnow
      exact Frame.Follows.ofResult _ hnow
  · next other hother =>
    refine Frame.Follows.ofResult (.fault (.notAFunction function.type)) ?_
    rw [hnow]
    cases function <;> first | rfl | exact absurd rfl (hother _ _)

/-- The operands left of a call, after those with the values `values`. -/
theorem Frame.Follows.operands (heval : Simulates remaining eval) (function : Value)
    (operands : List Node) (values : List Value) (f : Frame)
    (hmove : ∀ done, f.node.move (nullOf number) (f.done ++ done) =
      .operands (nullOf number) function values operands done) :
    f.Follows remaining number
      (evalArguments (fun part => eval part f.scope >>= Eval.orNull) operands >>= fun arguments =>
        match arguments with
        | .error fault => Pure.pure (some fault)
        | .ok others => some <$> applyFunction eval function (values ++ others)) := by
  induction operands generalizing values f with
  | nil =>
    rw [evalArguments, pure_bind]
    show f.Follows remaining number (some <$> applyFunction eval function (values ++ []))
    rw [List.append_nil]
    exact Frame.Follows.application heval function values hmove
  | cons operand more ih =>
    rw [evalArguments, bind_assoc]
    refine Frame.Follows.visitValue heval ?_ fun result => ?_
    · rw [← List.append_nil f.done, hmove]
      rfl
    · have hnow := hmove [result]
      simp only [Move.operands] at hnow
      by_cases herror : (result.getD (nullOf number)).isError = true
      · rw [if_pos herror, pure_bind]
        refine Frame.Follows.pure ?_
        rw [Move.unlessError, if_pos herror] at hnow
        exact hnow
      · rw [if_neg herror, bind_assoc]
        have hnext : ∀ done, (f.received result).node.move (nullOf number)
            ((f.received result).done ++ done) =
            .operands (nullOf number) function (values ++ [result.getD (nullOf number)]) more
              done := by
          intro done
          show f.node.move _ ((f.done ++ [result]) ++ done) = _
          rw [List.append_assoc, hmove]
          simp only [List.cons_append, List.nil_append, Move.operands]
          rw [Move.unlessError, if_neg herror]
        have h := ih (values ++ [result.getD (nullOf number)]) (f.received result) hnext
        rw [show (f.received result).scope = f.scope from rfl] at h
        simp only [List.append_assoc, List.cons_append, List.nil_append] at h
        refine Frame.Follows.congr (fun m => ?_) h
        rw [Eval.bind_apply, Eval.bind_apply]
        rcases evalArguments _ more m with ⟨_ | _ | _, _⟩ <;> rfl

/-- What a node does follows the moves of its frame. -/
theorem Frame.Follows.evaluate (heval : Simulates remaining eval) (opened : Nat) (node : Node)
    (scope : ScopeId) :
    Frame.Follows remaining number ⟨opened, node, scope, []⟩ (node.evaluate eval scope) := by
  cases node with
  | program id statements =>
    exact Frame.Follows.statements (f := ⟨opened, .program id statements, scope, []⟩) heval
      statements none rfl fun done => rfl
  | block id statements =>
    have h : Frame.Follows remaining number ⟨opened, .block id statements, scope, []⟩
        (evalStatements (eval · scope) none statements >>= Pure.pure) :=
      Frame.Follows.statements (f := ⟨opened, .block id statements, scope, []⟩) heval
        statements none rfl fun done => rfl
    rw [bind_pure] at h
    exact h
  | expressionStatement id expression =>
    rw [Node.evaluate, ← bind_pure (eval expression scope)]
    exact Frame.Follows.visit heval rfl fun value => Frame.Follows.pure rfl
  | returnStatement id operand =>
    refine Frame.Follows.visitValue heval rfl fun value => Frame.Follows.unlessError rfl ?_
    intro _ hmove
    exact Frame.Follows.finish hmove fun m _ => rfl
  | letStatement id target operand =>
    refine Frame.Follows.visitValue heval rfl fun value => Frame.Follows.unlessError rfl ?_
    intro _ hmove
    refine Frame.Follows.finish hmove fun m _ => ?_
    rw [Ending.apply]
    cases target.name? <;> rfl
  | integer id n =>
    exact Frame.Follows.ofResult (f := ⟨opened, .integer id n, scope, []⟩) (.integer n) rfl
  | boolean id b =>
    exact Frame.Follows.ofResult (f := ⟨opened, .boolean id b, scope, []⟩) (.boolean b) rfl
  | identifier id name =>
    have hmove : (Node.identifier id name).move (nullOf number) [] = .finish (.lookUp name) := rfl
    refine Frame.Follows.finish hmove fun m _ => ?_
    rw [Ending.apply, Node.evaluate, Eval.bind_apply]
    simp only [Eval.lookUp]
    cases m.heap.get? scope name <;> rfl
  | prefixExpression id op operand =>
    refine Frame.Follows.visitValue heval rfl fun value => Frame.Follows.unlessError rfl ?_
    intro _ hmove
    exact Frame.Follows.ofResult _ hmove
  | infixExpression id op first second =>
    refine Frame.Follows.visitValue heval rfl fun left => Frame.Follows.unlessError rfl ?_
    intro _ hmove
    refine Frame.Follows.visitValue heval hmove fun right => Frame.Follows.unlessError rfl ?_
    intro _ hmove
    exact Frame.Follows.ofResult _ hmove
  | ifExpression id condition consequence alternative =>
    refine Frame.Follows.visitValue heval rfl fun test => Frame.Follows.unlessError rfl ?_
    intro _ hmove
    split at hmove
    · next htruthy =>
      rw [if_pos htruthy, ← bind_pure (eval consequence scope)]
      exact Frame.Follows.visit heval hmove fun value => Frame.Follows.pure rfl
    · next htruthy =>
      rw [if_neg htruthy]
      cases alternative with
      | none =>
        refine Frame.Follows.finish hmove fun m hn => ?_
        show (Except.ok (some m.null), m) = _
        rw [Machine.null, hn]
        rfl
      | some other =>
        show Frame.Follows _ _ _ (eval other scope)
        rw [← bind_pure (eval other scope)]
        exact Frame.Follows.visit heval hmove fun value => Frame.Follows.pure rfl
  | functionLiteral id parameters body => exact Frame.Follows.finish rfl fun m _ => rfl
  | call id callee operands =>
    refine Frame.Follows.visitValue heval rfl fun function => Frame.Follows.unlessError rfl ?_
    intro herror _
    refine Frame.Follows.operands
      (f := Frame.received ⟨opened, .call id callee operands, scope, []⟩ function)
      heval (function.getD (nullOf number)) operands [] fun done => ?_
    show Move.unlessError _ _ = _
    rw [Move.unlessError, if_neg (by simp [herror])]
    rfl

end Follows

/-! ## Whole evaluations -/

/-- An evaluation within a depth, from the step that enters its node on. -/
theorem evalWithin_succ_apply (remaining : Nat) (node : Node) (scope : ScopeId) (m : Machine) :
    evalWithin (remaining + 1) node scope m =
      match node.evaluate (evalWithin remaining) scope (m.enter node scope) with
      | (.ok value, m') => (.ok value, m'.leave node scope value)
      | (.error o, m') => (.error o, { m' with depth := m'.depth - 1 }) := by
  have henter : Eval.deeper (node.evaluate (evalWithin remaining) scope)
      (if m.tracing then { m with trace := m.trace.enter node scope } else m) =
      match node.evaluate (evalWithin remaining) scope (m.enter node scope) with
      | (result, m') => (result, { m' with depth := m'.depth - 1 }) := by
    obtain ⟨heap, trace, depth, limit, tracing, number⟩ := m
    cases tracing <;> rfl
  rw [evalWithin, Eval.bind_apply]
  show (Eval.deeper _ >>= _) (if m.tracing then { m with trace := m.trace.enter node scope } else m) = _
  rw [Eval.bind_apply, henter]
  rcases node.evaluate (evalWithin remaining) scope (m.enter node scope) with ⟨o | value, m'⟩
  · rfl
  · show (Except.ok value, if m'.tracing then _ else _) = (Except.ok value, m'.leave node scope value)
    obtain ⟨heap, trace, depth, limit, tracing, number⟩ := m'
    cases tracing <;> rfl

/-- The steps from entering a node lead where its evaluation does. -/
theorem simulates_evalWithin (remaining : Nat) : Simulates remaining (evalWithin remaining) := by
  induction remaining with
  | zero =>
    intro node scope m frames hr
    exact ⟨_, Relation.ReflTransGen.refl, ⟨⟨node, scope, rfl⟩, Nat.sub_eq_zero_iff_le.mp hr⟩, rfl, rfl⟩
  | succ remaining ih =>
    intro node scope m frames hr
    rw [evalWithin_succ_apply]
    have hdepth : m.depth < m.limit := by omega
    have hinner := Frame.Follows.evaluate ih m.trace.steps node scope (m.enter node scope) frames
      (show m.limit - (m.depth + 1) = remaining by omega) rfl
    refine Config.EndsAs.head (.enter hdepth) ?_
    rcases hact : node.evaluate (evalWithin remaining) scope (m.enter node scope) with ⟨o | value, m'⟩
    · rw [hact] at hinner
      obtain ⟨c', hreach, hstuck, ho, hm⟩ := hinner
      exact ⟨c', hreach, hstuck, ho, by rw [hm]; rfl⟩
    · rw [hact] at hinner
      obtain ⟨hreach, hsame⟩ := hinner
      refine ⟨hreach, ⟨?_, hsame.limit, hsame.tracing, hsame.number⟩⟩
      show m'.depth - 1 = m.depth
      rw [hsame.depth]
      rfl

/-- **The steps lead where the evaluation does.** -/
theorem Machine.eval_steps (m : Machine) (node : Node) (scope : ScopeId) :
    (Config.start m node scope).EndsAs m (fun value m' => ⟨m', .stop value, []⟩)
      (m.eval node scope) :=
  simulates_evalWithin _ node scope m [] rfl

end TraceTree

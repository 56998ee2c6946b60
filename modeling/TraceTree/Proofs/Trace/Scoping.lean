import TraceTree.Proofs.Trace.Linking
import TraceTree.Proofs.Workspace.Runs

set_option autoImplicit false

/-! # Names have lexical scope

What a name stands for can be told from the events of a trace alone. A scope binds a name when a
`let` is left in it and when it is made for a call, and of these the latest counts (`Bound`); a name
stands for what the nearest scope of its chain binds (`Sees`). The heap of a run agrees with this in
every moment (`Config.Recorded.scoped`), so an identifier is left with that very value. -/

namespace TraceTree

/-! ## What the events say about names -/

/-- After these events the innermost open node is a call whose function and arguments are
evaluated. -/
def Applies (null : Value) (events : List Event) (closure : Closure) (arguments : List Value) :
    Prop :=
  ∃ o outer id callee operands valueId others,
    openNodes events = o :: outer ∧ o.node = .call id callee operands ∧
      o.results = some (.function valueId closure) :: others ∧
      others.length = operands.length ∧ arguments = others.map (·.getD null)

/-- An event gives a name a value in a scope: it leaves a `let` whose operand was left just before,
or it enters the body of a function in the scope that was made for its parameters. -/
inductive Writes (null : Value) (earlier : List Event) : Event → ScopeId → String → Value → Prop where
  | letStatement {step step' : Nat} {id : NodeId} {target operand : Node} {scope : ScopeId}
      {name : String} {w : Option Value} (named : target.name? = some name)
      (left : earlier.getLast? = some (.exit step' operand scope w)) :
      Writes null earlier (.exit step (.letStatement id target operand) scope none) scope name
        (w.getD null)
  | parameter {step : Nat} {closure : Closure} {arguments : List Value} {scope : ScopeId}
      {name : String} {v : Value} (applies : Applies null earlier closure arguments)
      (named : lastNamed name (closure.parameters.zip arguments) = some v) :
      Writes null earlier (.entry step closure.body scope) scope name v

/-- What a scope binds a name to after some events: the value of the latest event that gives it one
there, or what it was bound to at the start if there is no such event. -/
def Bound (start : Heap) (null : Value) (events : List Event) (s : ScopeId) (name : String)
    (v : Value) : Prop :=
  (∃ i e, events[i]? = some e ∧ Writes null (events.take i) e s name v ∧
    ∀ j e' w, i < j → events[j]? = some e' → ¬ Writes null (events.take j) e' s name w) ∨
  (start.Binds s name v ∧
    ∀ j e w, events[j]? = some e → ¬ Writes null (events.take j) e s name w)

/-- What a name stands for: what the nearest scope binds it to, of those that bind it. -/
def Sees (start : Heap) (null : Value) (events : List Event) (chain : List ScopeId) (name : String)
    (v : Value) : Prop :=
  ∃ inner s outer, chain = inner ++ s :: outer ∧ Bound start null events s name v ∧
    ∀ t ∈ inner, ∀ w, ¬ Bound start null events t name w

/-- One more event gives the name its value, or leaves it as it was. -/
theorem bound_concat {start : Heap} {null : Value} {events : List Event} {e : Event} {s : ScopeId}
    {name : String} {v : Value} :
    Bound start null (events ++ [e]) s name v ↔
      Writes null events e s name v ∨
        ((∀ w, ¬ Writes null events e s name w) ∧ Bound start null events s name v) := by
  have hold : ∀ {i : Nat} {e' : Event}, events[i]? = some e' →
      (events ++ [e]).take i = events.take i := fun he =>
    List.take_append_of_le_length (Nat.le_of_lt (List.getElem?_eq_some_iff.mp he).1)
  -- that no event from some point on gives the name a value holds of the old ones and of the last
  have hnone : ∀ k ≤ events.length,
      (∀ j e' w, k ≤ j → (events ++ [e])[j]? = some e' →
        ¬ Writes null ((events ++ [e]).take j) e' s name w) ↔
      (∀ w, ¬ Writes null events e s name w) ∧
        ∀ j e' w, k ≤ j → events[j]? = some e' → ¬ Writes null (events.take j) e' s name w := by
    intro k hk
    constructor
    · intro hno
      refine ⟨fun w hw => ?_, fun j e' w hj he hw => ?_⟩
      · exact hno _ e w hk List.getElem?_concat_length (by rw [List.take_left]; exact hw)
      · exact hno j e' w hj (getElem?_concat_eq_some.mpr (Or.inl he)) (by rw [hold he]; exact hw)
    · rintro ⟨hlast, hno⟩ j e' w hj he
      rcases getElem?_concat_eq_some.mp he with he | ⟨rfl, rfl⟩
      · rw [hold he]
        exact hno j e' w hj he
      · rw [List.take_left]
        exact hlast w
  constructor
  · rintro (⟨i, e', he, hwrites, hlater⟩ | ⟨hstart, hno⟩)
    · rcases getElem?_concat_eq_some.mp he with he | ⟨rfl, rfl⟩
      · obtain ⟨hlast, hlater⟩ := (hnone (i + 1) (List.getElem?_eq_some_iff.mp he).1).mp hlater
        rw [hold he] at hwrites
        exact Or.inr ⟨hlast, Or.inl ⟨i, e', he, hwrites, hlater⟩⟩
      · rw [List.take_left] at hwrites
        exact Or.inl hwrites
    · obtain ⟨hlast, hno⟩ := (hnone 0 (Nat.zero_le _)).mp fun j e' w _ => hno j e' w
      exact Or.inr ⟨hlast, Or.inr ⟨hstart, fun j e' w => hno j e' w (Nat.zero_le j)⟩⟩
  · rintro (hwrites | ⟨hlast, ⟨i, e', he, hwrites, hlater⟩ | ⟨hstart, hno⟩⟩)
    · refine Or.inl ⟨events.length, e, List.getElem?_concat_length, ?_, ?_⟩
      · rw [List.take_left]
        exact hwrites
      · intro j e' w hj he
        have hlen := (List.getElem?_eq_some_iff.mp he).1
        rw [List.length_append, List.length_singleton] at hlen
        omega
    · refine Or.inl ⟨i, e', getElem?_concat_eq_some.mpr (Or.inl he), ?_, ?_⟩
      · rw [hold he]
        exact hwrites
      · exact (hnone (i + 1) (List.getElem?_eq_some_iff.mp he).1).mpr ⟨hlast, hlater⟩
    · have hno' := (hnone 0 (Nat.zero_le _)).mpr ⟨hlast, fun j e' w _ => hno j e' w⟩
      exact Or.inr ⟨hstart, fun j e' w => hno' j e' w (Nat.zero_le j)⟩

/-! ## What steps bind -/

/-- The name that the end of a node binds, with its value. -/
def Ending.written? : Ending → Option (String × Value)
  | bind target v => target.name?.map (·, v)
  | _ => none

theorem Ending.written?_eq_some {ending : Ending} {name : String} {v : Value}
    (h : ending.written? = some (name, v)) :
    ∃ target, ending = .bind target v ∧ target.name? = some name := by
  cases ending with
  | bind target w =>
    obtain ⟨name', hname, heq⟩ := Option.map_eq_some_iff.mp h
    obtain ⟨rfl, rfl⟩ := Prod.mk.inj heq
    exact ⟨target, rfl, hname⟩
  | _ => cases h

/-- The end of a node binds what it writes, and nothing else. -/
theorem Ending.binds_apply {ending : Ending} {scope : ScopeId} {m : Machine}
    (hscope : scope < m.heap.scopes.size) {s : ScopeId} {name : String} {v : Value} :
    (ending.apply scope m).2.heap.Binds s name v ↔
      (s = scope ∧ ending.written? = some (name, v)) ∨
        ((∀ w, ¬ (s = scope ∧ ending.written? = some (name, w))) ∧ m.heap.Binds s name v) := by
  cases hwritten : ending.written? with
  | none =>
    have hscopes : (ending.apply scope m).2.heap.scopes = m.heap.scopes := by
      cases ending with
      | bind target w =>
        rw [Ending.apply, Option.map_eq_none_iff.mp hwritten]
      | lookUp other =>
        rw [Ending.apply]
        split <;> rfl
      | result r => cases r <;> rfl
      | _ => rfl
    unfold Heap.Binds Heap.bindings
    rw [hscopes]
    simp
  | some written =>
    obtain ⟨target, rfl, hname⟩ := written?_eq_some hwritten
    rw [Ending.apply, hname]
    show (m.heap.set scope written.1 written.2).Binds s name v ↔ _
    rw [Heap.binds_set hscope]
    split
    · next hself =>
      obtain ⟨rfl, rfl⟩ := hself
      simp [Prod.ext_iff, eq_comm]
    · next hother =>
      have hnot : ∀ w, ¬ (s = scope ∧ some written = some (name, w)) := by
        rintro w ⟨rfl, heq⟩
        rw [Option.some.inj heq] at hother
        exact hother ⟨rfl, rfl⟩
      exact ⟨fun hb => Or.inr ⟨hnot, hb⟩, fun hb => hb.elim (fun h => absurd h (hnot v)) (·.2)⟩

/-! ## What events write -/

section

variable {null : Value} {earlier : List Event} {step : Nat} {node : Node} {scope s : ScopeId}
  {name : String} {v : Value}

theorem writes_exit {value : Option Value} :
    Writes null earlier (.exit step node scope value) s name v ↔
      s = scope ∧ value = none ∧ ∃ id target operand step' w,
        node = .letStatement id target operand ∧ target.name? = some name ∧
          earlier.getLast? = some (.exit step' operand scope w) ∧ v = w.getD null := by
  constructor
  · intro h
    cases h with
    | letStatement named left => exact ⟨rfl, rfl, _, _, _, _, _, rfl, named, left, rfl⟩
  · rintro ⟨rfl, rfl, _, _, _, _, _, rfl, named, left, rfl⟩
    exact .letStatement named left

theorem writes_entry :
    Writes null earlier (.entry step node scope) s name v ↔
      s = scope ∧ ∃ closure arguments, node = closure.body ∧ Applies null earlier closure arguments ∧
        lastNamed name (closure.parameters.zip arguments) = some v := by
  constructor
  · intro h
    cases h with
    | parameter applies named => exact ⟨rfl, _, _, rfl, applies, named⟩
  · rintro ⟨rfl, _, _, rfl, applies, named⟩
    exact .parameter applies named

end

namespace Config

variable {c c' : Config} {m : Machine} {root : Node} {rootScope s : ScopeId} {f : Frame}
  {rest : List Frame} {name : String} {v : Value}

/-- The innermost frame is a call if the events say that one applies a function. -/
theorem Nested.of_applies (h : c.Nested root rootScope) (hframes : c.frames = f :: rest)
    {null : Value} {closure : Closure} {arguments : List Value}
    (happlies : Applies null c.machine.events closure arguments) :
    ∃ id callee operands valueId others, f.node = .call id callee operands ∧
      f.done = some (.function valueId closure) :: others ∧ others.length = operands.length ∧
      arguments = others.map (·.getD null) := by
  obtain ⟨o, outer, id, callee, operands, valueId, others, hopen, hnode, hresults, hlen, hargs⟩ :=
    happlies
  obtain ⟨o', outer', hopen', hmatch, _⟩ := h.openNodes_eq hframes
  rw [hopen] at hopen'
  obtain ⟨rfl, rfl⟩ := List.cons.inj hopen'
  exact ⟨id, callee, operands, valueId, others, hmatch.node.symm.trans hnode,
    hmatch.results.symm.trans hresults, hlen, hargs⟩

/-- The events say which function a call is about to call. -/
theorem Nested.applies (h : c.Nested root rootScope) (hframes : c.frames = f :: rest)
    {closure : Closure} {arguments : List Value}
    (hmove : f.node.move c.machine.null f.done = .call closure arguments) :
    Applies c.machine.null c.machine.events closure arguments := by
  obtain ⟨id, callee, operands, function, others, hnode, hdone, hlen, hargs, _, _, id', hfunction⟩ :=
    Node.of_move_eq_call hmove
  obtain ⟨o, outer, hopen, hmatch, _⟩ := h.openNodes_eq hframes
  refine ⟨o, outer, id, callee, operands, id', others, hopen, hmatch.node.trans hnode, ?_, hlen,
    hargs⟩
  rw [hmatch.results, hdone]
  cases function with
  | none => exact absurd hfunction (by simp [Machine.null])
  | some value =>
    rw [show value = .function id' closure from hfunction]

/-- The body of a function is entered with its parameters bound in the scope made for it. -/
theorem Nested.writes_call (h : c.Nested root rootScope) (hframes : c.frames = f :: rest)
    {closure : Closure} {arguments : List Value}
    (hmove : f.node.move c.machine.null f.done = .call closure arguments) {step : Nat}
    {scope : ScopeId} :
    Writes c.machine.null c.machine.events (.entry step closure.body scope) s name v ↔
      s = scope ∧ lastNamed name (closure.parameters.zip arguments) = some v := by
  rw [writes_entry]
  refine and_congr_right fun _ => ⟨?_, fun hnamed => ?_⟩
  · rintro ⟨other, arguments', _, happlies, hnamed⟩
    obtain ⟨_, _, _, valueId, others, _, hdone, _, hargs⟩ := h.of_applies hframes happlies
    obtain ⟨_, _, _, _, others', _, hdone', _, hargs', _, _, id', hfunction⟩ :=
      Node.of_move_eq_call hmove
    rw [hdone] at hdone'
    obtain ⟨rfl, rfl⟩ := List.cons.inj hdone'
    obtain ⟨_, rfl⟩ := Value.function.inj hfunction
    rw [hargs', ← hargs]
    exact hnamed
  · exact ⟨closure, arguments, rfl, h.applies hframes hmove, hnamed⟩

/-- To enter a field binds nothing. -/
theorem Nested.not_writes_visit (h : c.Nested root rootScope) (hframes : c.frames = f :: rest)
    {part : Node} (hmove : f.node.move c.machine.null f.done = .visit part) {step : Nat}
    {scope : ScopeId} :
    ¬ Writes c.machine.null c.machine.events (.entry step part scope) s name v := by
  rw [writes_entry]
  rintro ⟨_, closure, arguments, _, happlies, _⟩
  obtain ⟨id, callee, operands, valueId, others, hnode, hdone, hlen, _⟩ :=
    h.of_applies hframes happlies
  obtain ⟨walk, hwalk, hpart, _⟩ := Node.walk_of_visit hmove
  rw [hnode, Node.walks, List.mem_singleton] at hwalk
  rw [hwalk, hdone, List.getElem?_eq_none (by simp [hlen])] at hpart
  cases hpart

/-- The event before the end of a `let` is the exit of its operand. -/
theorem Recorded.let_operand (h : c.Recorded m root rootScope) (hcontrol : c.control = .advance)
    (hframes : c.frames = f :: rest) {id : NodeId} {target operand : Node}
    (hnode : f.node = .letStatement id target operand) {value : Option Value}
    {more : List (Option Value)} (hdone : f.done = value :: more) :
    ∃ step, c.machine.events.getLast? = some (.exit step operand f.scope value) := by
  rcases h.handed hcontrol f rest hframes with
    hnil | ⟨done, value', step, node, scope, hdone', hlast, hasks⟩
  · rw [hdone] at hnil
    cases hnil
  rcases hasks with ⟨hvisit, rfl⟩ | ⟨closure, arguments, hcall, _⟩
  · rw [hnode] at hvisit
    cases done with
    | nil =>
      obtain ⟨rfl, _⟩ := List.cons.inj (hdone.symm.trans hdone')
      obtain rfl := Move.visit.inj hvisit
      exact ⟨step, hlast⟩
    | cons first others => exact absurd (Move.unlessError_eq_of_ne hvisit (by simp)).2 (by simp)
  · obtain ⟨_, _, _, _, _, hcallNode, _⟩ := Node.of_move_eq_call hcall
    exact absurd (hnode.symm.trans hcallNode) (by simp)

/-- The exit of a node binds what the end of the node writes. -/
theorem Recorded.writes_finish (h : c.Recorded m root rootScope) (hcontrol : c.control = .advance)
    (hframes : c.frames = f :: rest) {ending : Ending}
    (hmove : f.node.move c.machine.null f.done = .finish ending) {step : Nat} :
    Writes c.machine.null c.machine.events
        (.exit step f.node f.scope (ending.apply f.scope c.machine).1) s name v ↔
      s = f.scope ∧ ending.written? = some (name, v) := by
  rw [writes_exit]
  refine and_congr_right fun _ => ⟨?_, fun hwritten => ?_⟩
  · rintro ⟨hvalue, id, target, operand, step', w, hnode, hname, hlast, rfl⟩
    rw [hnode] at hmove
    cases hdone : f.done with
    | nil => rw [hdone] at hmove; cases hmove
    | cons first more =>
      obtain ⟨_, hlast'⟩ := h.let_operand hcontrol hframes hnode hdone
      rw [hlast] at hlast'
      obtain ⟨_, _, _, rfl⟩ := Event.exit.inj (Option.some.inj hlast')
      rw [hdone] at hmove
      rcases Move.unlessError_eq hmove with ⟨_, hfault⟩ | ⟨_, hbind⟩
      · rw [Move.finish.inj hfault] at hvalue
        cases hvalue
      · rw [← Move.finish.inj hbind, Ending.written?, hname]
        rfl
  · obtain ⟨target, rfl, hname⟩ := Ending.written?_eq_some hwritten
    cases Node.endsWith_of_move hmove with
    | @bind id target operand w more node parts =>
      obtain ⟨step', hlast⟩ := h.let_operand hcontrol hframes node parts
      refine ⟨?_, id, target, operand, step', w, node, hname, hlast, rfl⟩
      rw [Ending.apply, hname]

/-! ## The heap of a run -/

/-- The events so far, and the entry that is about to be recorded: a scope is made for a call before
the body is entered. -/
def history (c : Config) : List Event :=
  match c.control with
  | .enter node scope => c.machine.events ++ [.entry c.machine.events.length node scope]
  | _ => c.machine.events

/-- The scopes bind what the events say. -/
def Scoped (start : Heap) (null : Value) (c : Config) : Prop :=
  ∀ s name v, c.machine.heap.Binds s name v ↔ Bound start null c.history s name v

theorem history_of_advance (h : c.control = .advance) : c.history = c.machine.events := by
  rw [history, h]

/-- **A step binds what its event says.** -/
theorem Step.scoped {start : Heap} (hrec : c.Recorded m root rootScope) (hstep : c.Step c')
    (h : c.Scoped start m.null) : c'.Scoped start m.null := by
  have ht := hrec.tracing_eq
  have hnested := hrec.nested
  have hnull := hrec.null_eq
  intro s name v
  have hsame := h s name v
  cases hstep with
  | @enter m' node scope frames allowed =>
    rw [show Config.history ⟨m'.enter node scope, .advance, _⟩ =
      Config.history ⟨m', .enter node scope, frames⟩ from Machine.events_enter ht node scope]
    exact hsame
  | @visit m' f rest part move =>
    show m'.heap.Binds s name v ↔ Bound start m.null (m'.events ++ [_]) s name v
    have hnot : ∀ w, ¬ Writes m'.null m'.events (.entry m'.events.length part f.scope) s name w :=
      fun w => hnested.not_writes_visit rfl move
    rw [hnull] at hnot
    rw [bound_concat]
    exact hsame.trans ⟨fun hb => Or.inr ⟨hnot, hb⟩, fun hb =>
      hb.elim (fun hw => absurd hw (hnot v)) (·.2)⟩
  | @call m' f rest closure arguments move =>
    show (m'.heap.openCall closure arguments).Binds s name v ↔ Bound start m.null
      (m'.events ++ [.entry m'.events.length closure.body m'.heap.scopes.size]) s name v
    have hwrites : ∀ w, Writes m'.null m'.events
        (.entry m'.events.length closure.body m'.heap.scopes.size) s name w ↔
          s = m'.heap.scopes.size ∧ lastNamed name (closure.parameters.zip arguments) = some w :=
      fun w => hnested.writes_call rfl move
    rw [show m'.null = m.null from hnull] at hwrites
    rw [bound_concat, Heap.binds_openCall]
    simp only [hwrites]
    split
    · next hs =>
      -- the scope is new, so nothing was bound in it
      have hnew : ¬ Bound start m.null m'.events s name v := by
        intro hb
        have hbinds := hsame.mpr hb
        rw [show Config.machine ⟨m', _, _⟩ = m' from rfl, Heap.Binds,
          Heap.bindings_of_size_le (Nat.le_of_eq hs.symm)] at hbinds
        cases hbinds
      exact ⟨fun hb => Or.inl ⟨hs, hb⟩, fun hb => hb.elim (·.2) fun hb => absurd hb.2 hnew⟩
    · next hs =>
      exact hsame.trans ⟨fun hb => Or.inr ⟨fun w hw => hs hw.1, hb⟩, fun hb =>
        hb.elim (fun hw => absurd hw.1 hs) (·.2)⟩
  | @finish m' f rest ending move =>
    have hwrites : ∀ w, Writes m'.null m'.events
        (.exit m'.events.length f.node f.scope (ending.apply f.scope m').1) s name w ↔
          s = f.scope ∧ ending.written? = some (name, w) :=
      fun w => hrec.writes_finish rfl rfl move
    rw [show m'.null = m.null from hnull] at hwrites
    have hevents : ∀ value, (deliver ((ending.apply f.scope m').2.leave f.node f.scope value) value
        rest).history = m'.events ++ [.exit m'.events.length f.node f.scope value] := by
      intro value
      rw [← Machine.events_finish ht ending f.node f.scope value]
      cases rest <;> rfl
    rw [hevents, bound_concat, machine_deliver]
    simp only [hwrites]
    refine (Ending.binds_apply (hnested.frames_lt f List.mem_cons_self)).trans ?_
    rw [show m'.heap.Binds s name v ↔ Bound start m.null m'.events s name v from hsame]

/-- **At every moment of a run the scopes bind what the events say.** -/
theorem Recorded.scoped (h : c.Recorded m root rootScope) : c.Scoped m.heap m.null := by
  refine h.induct ?_ fun _ _ hrec hscoped hstep => hstep.scoped hrec hscoped
  intro s name v
  show m.heap.Binds s name v ↔ Bound m.heap m.null (m.events ++ [_]) s name v
  rw [h.events_eq, bound_concat]
  have hnot : ∀ {e : Event} {w : Value}, e.isEntry = true → ¬ Writes m.null [] e s name w := by
    rintro e w hentry (⟨_, hlast⟩ | ⟨⟨_, _, _, _, _, _, _, hopen, _⟩, _⟩)
    · cases hentry
    · cases hopen
  constructor
  · exact fun hb => Or.inr ⟨fun w => hnot rfl, Or.inr ⟨hb, fun j e w he => (by simp at he)⟩⟩
  · rintro (hw | ⟨_, ⟨i, e, he, _⟩ | ⟨hb, _⟩⟩)
    · exact absurd hw (hnot rfl)
    · simp at he
    · exact hb

/-- A scope that binds a name to a fault did so before the step. -/
theorem Step.binds_of_isError (hrec : c.Recorded m root rootScope) (hstep : c.Step c')
    (hb : c'.machine.heap.Binds s name v) (hv : v.isError = true) :
    c.machine.heap.Binds s name v := by
  have hlt := hrec.nested.frames_lt
  cases hstep with
  | enter _ => exact hb
  | visit _ => exact hb
  | call move =>
    obtain ⟨_, _, _, _, _, _, _, _, hargs, _, hproper, _⟩ := Node.of_move_eq_call move
    rcases Heap.Binds.of_openCall hb with hlast | hold
    · obtain ⟨pair, hpair, rfl⟩ := List.mem_map.mp (mem_of_lastNamed hlast)
      have harg := (List.of_mem_zip hpair).2
      rw [hargs] at harg
      obtain ⟨w, hw, hvalue⟩ := List.mem_map.mp harg
      rw [← hvalue, hproper w hw] at hv
      cases hv
    · exact hold
  | finish move =>
    rw [machine_deliver] at hb
    rcases (Ending.binds_apply (hlt _ List.mem_cons_self)).mp hb with ⟨_, hwritten⟩ | ⟨_, hold⟩
    · obtain ⟨target, rfl, _⟩ := Ending.written?_eq_some hwritten
      rw [Node.isError_of_move_bind move] at hv
      cases hv
    · exact hold

/-- No name is bound to a fault that was not bound at the start. -/
theorem Recorded.binds_of_isError (h : c.Recorded m root rootScope) (hv : v.isError = true)
    (hb : c.machine.heap.Binds s name v) : m.heap.Binds s name v := by
  refine h.induct (P := fun c => c.machine.heap.Binds s name v → m.heap.Binds s name v) id ?_ hb
  exact fun _ _ hrec ih hstep hb => ih (hstep.binds_of_isError hrec hb hv)

/-- The scope that is made for a call lies in the scope of the function. -/
theorem Recorded.outer?_of_applies (h : c.Recorded m root rootScope) {node : Node}
    (hcontrol : c.control = .enter node s) {null : Value} {closure : Closure}
    {arguments : List Value} (happlies : Applies null c.machine.events closure arguments) :
    c.machine.heap.outer? s = some closure.scope := by
  obtain ⟨o, outer, id, callee, operands, valueId, others, hopen, hnode, hresults, hlen, _⟩ :=
    happlies
  obtain ⟨_, hrequested⟩ := h.nested.requested node s hcontrol
  have htracks := h.nested.tracks
  rw [hopen] at hrequested htracks
  rcases hrequested with ⟨_, walk, hwalk, _, hprefix⟩ |
    ⟨_, _, _, _, closure', _, _, _, hhead, _, _, houter⟩
  · -- no field is left to be entered
    generalize c.frames = frames at htracks
    cases htracks with
    | cons hmatch _ _ =>
      have hle := hprefix.length_le
      rw [hnode, Node.walks, List.mem_singleton] at hwalk
      rw [hwalk, List.length_append, hmatch.parts, ← hmatch.results, hresults] at hle
      simp only [List.length_cons, List.length_nil, hlen] at hle
      omega
  · rw [hresults, List.head?_cons] at hhead
    obtain ⟨_, rfl⟩ := Value.function.inj (Option.some.inj (Option.some.inj hhead))
    exact houter

end Config

/-! ## Recorded traces -/

/-- Names have lexical scope in the trace `events` of an evaluation that started with the heap
`start` and ended with the heap `after`. -/
structure LexicallyScoped (start after : Heap) (null : Value) (events : List Event) : Prop where
  /-- An identifier is left with the very value that the nearest scope binds it to. It is left with
  a fault of its own making exactly if no scope of the chain binds it. -/
  identifiers : ∀ (i : Nat) id name s (value : Option Value),
    events[i]? = some (.exit i (.identifier id name) s value) →
    (∀ v, Sees start null (events.take i) (after.chain s) name v → value = some v) ∧
      ((∀ t ∈ after.chain s, ∀ v, ¬ Bound start null (events.take i) t name v) ↔
        ∃ serial, start.values ≤ serial ∧
          value = some (.error (.made serial) (.unboundIdentifier name)))
  /-- The scopes there are at the start keep their chains. -/
  chain_start : ∀ s < start.scopes.size, after.chain s = start.chain s
  /-- The chain of the scope of a call goes on with the chain of the scope of the function. -/
  chain_call : ∀ (i : Nat) node s closure arguments, events[i]? = some (.entry i node s) →
    Applies null (events.take i) closure arguments → after.chain s = s :: after.chain closure.scope
  /-- The scope of a function is the one in which its literal was evaluated. -/
  closures : ∀ (i : Nat) id parameters body s (value : Option Value),
    events[i]? = some (.exit i (.functionLiteral id parameters body) s value) →
    ∃ serial, value = some (.function (.made serial) ⟨parameters, body, s⟩)

/-- **Names have lexical scope,** and values pass by identity. Whatever is evaluated, and whatever the
scopes bind at the start: an identifier is left with the value that was bound to it last in the
nearest scope of its chain, and the chain of a function is that of its definition. -/
theorem Machine.lexicallyScoped_eval (heap : Heap) (limit : Nat) (root : Node) (scope : ScopeId)
    (hs : scope < heap.scopes.size) (hheap : heap.Sound) :
    let start := Machine.new heap limit true
    let after := (start.eval root scope).2
    LexicallyScoped heap after.heap start.null after.events := by
  intro start after
  obtain ⟨c, hrec, hheap', hevents, _⟩ := Machine.eval_recorded heap limit root hs
  have hsound : start.heap.Sound := ⟨hheap.outer_lt, hheap.bound⟩
  have hafter : c.machine.heap.Sound := (Config.Reaches.allocated hsound hs hrec.reaches).1.sound
  rw [show after.heap = c.machine.heap from hheap', show after.events = c.machine.events from hevents]
  refine ⟨?_, ?_, ?_, ?_⟩
  · intro i id name s value he
    obtain ⟨c₁, c₂, hrec₁, hstep, hlater, htake, _, hlast⟩ := hrec.at_event he
    obtain ⟨f, rest, ending, hcontrol, hframes, hmove, hnode, rfl, rfl⟩ :=
      hstep.of_exit hrec₁.tracing_eq hlast
    rw [hnode] at hmove
    obtain rfl := Move.finish.inj hmove
    -- the chain is the same at the end, and the scopes bind what the events say
    have hscope : f.scope < c₁.machine.heap.scopes.size :=
      hrec₁.nested.frames_lt f (by rw [hframes]; exact List.mem_cons_self)
    obtain ⟨hallocated, hvalues⟩ := Config.Reaches.allocated hsound hs hrec₁.reaches
    have hchain : c.machine.heap.chain f.scope = c₁.machine.heap.chain f.scope :=
      Heap.Extends.chain_eq hallocated.sound.outer_lt
        (hstep.heap_extends.trans (Config.Reaches.heap_extends hlater)) hscope
    have hbinds : ∀ t v, c₁.machine.heap.Binds t name v ↔
        Bound heap start.null (c.machine.events.take i) t name v := by
      intro t v
      rw [← htake, ← Config.history_of_advance hcontrol]
      exact hrec₁.scoped t name v
    rw [hchain]
    unfold Sees
    simp only [← hbinds]
    refine ⟨fun v hsees => ?_, fun hnone => ?_, ?_⟩
    · rw [Ending.apply, Heap.get?_eq_some_iff.mpr hsees]
    · refine ⟨c₁.machine.heap.values, hvalues, ?_⟩
      rw [Ending.apply, Heap.get?_eq_none_iff.mpr hnone]
      rfl
    · rintro ⟨serial, hserial, hvalue⟩
      rw [← Heap.get?_eq_none_iff, Option.eq_none_iff_forall_ne_some]
      intro v hget
      rw [Ending.apply, hget] at hvalue
      obtain rfl := Option.some.inj hvalue
      -- a fault that is bound was bound at the start, and has an older number
      obtain ⟨t, ht⟩ := Heap.exists_binds_of_get? hget
      have hold := hheap.bound t name _ (hrec₁.binds_of_isError rfl ht)
      exact absurd ((hold _ List.mem_cons_self).1 serial rfl) (Nat.not_lt.mpr hserial)
  · have hextends := Config.Reaches.heap_extends hrec.reaches
    exact fun s hlt =>
      Heap.Extends.chain_eq hheap.outer_lt ⟨hextends.size_le, hextends.outer?_eq⟩ hlt
  · intro i node s closure arguments he happlies
    obtain ⟨c₁, c₂, hrec₁, hstep, hlater, htake, _, hlast⟩ := hrec.at_event he
    have hcontrol := (hstep.of_entry hrec₁.tracing_eq hlast).1
    rw [← htake] at happlies
    refine Heap.chain_of_outer? hafter.outer_lt ?_
    rw [(hstep.heap_extends.trans (Config.Reaches.heap_extends hlater)).outer?_eq s
      (hrec₁.nested.requested node s hcontrol).1]
    exact hrec₁.outer?_of_applies hcontrol happlies
  · intro i id parameters body s value he
    obtain ⟨c₁, c₂, hrec₁, hstep, _, _, _, hlast⟩ := hrec.at_event he
    obtain ⟨f, rest, ending, _, _, hmove, hnode, rfl, rfl⟩ := hstep.of_exit hrec₁.tracing_eq hlast
    rw [hnode] at hmove
    obtain rfl := Move.finish.inj hmove
    exact ⟨_, rfl⟩

/-- The program `let x = 1; let f = fn() { x }; let x = 3; fn(x) { f() }(2)`, where `f` is called
from a scope with an `x` of its own. -/
def shadowing : Node :=
  .program 0 [.letStatement 1 (.identifier 2 "x") (.integer 3 1),
    .letStatement 4 (.identifier 5 "f") (.functionLiteral 6 [] (.block 7
      [.expressionStatement 8 (.identifier 9 "x")])),
    .letStatement 10 (.identifier 11 "x") (.integer 12 3),
    .expressionStatement 13 (.call 14 (.functionLiteral 15 [.identifier 16 "x"] (.block 17
      [.expressionStatement 18 (.call 19 (.identifier 20 "f") [])])) [.integer 21 2])]

/-- Its evaluation. -/
def shadowingRun : Machine :=
  ((Machine.new Workspace.empty.heap 9 true).eval shadowing Workspace.empty.globals).2

/-- The call of `f` opens a scope in that of the program. -/
theorem outer?_shadowingRun :
    shadowingRun.heap.outer? 2 = some 0 ∧ shadowingRun.heap.outer? 0 = none :=
  ⟨by cbv, by cbv⟩

/-- The `x` of `f` stands for what was bound last where `f` was defined. -/
theorem Machine.lexicallyScoped_eval_shadowing :
    Workspace.empty.globals < Workspace.empty.heap.scopes.size ∧ Workspace.empty.heap.Sound ∧
      shadowingRun.events[27]? =
        some (.exit 27 (.identifier 9 "x") 2 (some (.integer (.made 2) 3))) ∧
      shadowingRun.heap.chain 2 = [2, 0] ∧
      ∃ t ∈ shadowingRun.heap.chain 2, ∃ v, Bound Workspace.empty.heap
        (Machine.new Workspace.empty.heap 9 true).null (shadowingRun.events.take 27) t "x" v := by
  obtain ⟨hheap, hs⟩ := Workspace.sound_empty
  have hscoped : LexicallyScoped Workspace.empty.heap shadowingRun.heap
      (Machine.new Workspace.empty.heap 9 true).null shadowingRun.events := by
    unfold shadowingRun
    exact Machine.lexicallyScoped_eval _ 9 shadowing _ hs hheap
  have he : shadowingRun.events[27]? =
      some (.exit 27 (.identifier 9 "x") 2 (some (.integer (.made 2) 3))) := by cbv
  have hchain : shadowingRun.heap.chain 2 = [2, 0] := by
    simp only [Heap.chain, Heap.chainFrom, outer?_shadowingRun.1, outer?_shadowingRun.2]
  refine ⟨hs, hheap, he, hchain, ?_⟩
  by_contra hnone
  obtain ⟨serial, _, hfault⟩ := (hscoped.identifiers 27 9 "x" 2 _ he).2.mp
    fun t ht v hv => hnone ⟨t, ht, v, hv⟩
  cases hfault

end TraceTree

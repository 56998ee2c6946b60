import TraceTree.Proofs.Eval.Simulation

set_option autoImplicit false

/-! # Runs and their events

What every run does to the heap and to the trace, whatever is evaluated. Scopes are added and never
moved, so the scope around a scope stays what it was (`Heap.Extends`). While events are recorded,
each of them belongs to one step, and `Config.Reaches.at_event` finds it: a statement about an event
of a trace becomes one about two configurations with a step between them. -/

namespace TraceTree

/-! ## Scopes are only added -/

namespace Heap

/-- A later state of a heap: no scope is lost, and the scopes around them are the same. -/
structure Extends (h h' : Heap) : Prop where
  size_le : h.scopes.size ≤ h'.scopes.size
  outer?_eq : ∀ s, s < h.scopes.size → h'.outer? s = h.outer? s

theorem Extends.refl (h : Heap) : h.Extends h := ⟨Nat.le_refl _, fun _ _ => rfl⟩

theorem Extends.trans {h₁ h₂ h₃ : Heap} (h : h₁.Extends h₂) (h' : h₂.Extends h₃) :
    h₁.Extends h₃ where
  size_le := Nat.le_trans h.size_le h'.size_le
  outer?_eq := by
    intro s hs
    rw [h'.outer?_eq s (Nat.lt_of_lt_of_le hs h.size_le), h.outer?_eq s hs]

@[simp] theorem size_set (h : Heap) (s : ScopeId) (name : String) (value : Value) :
    (h.set s name value).scopes.size = h.scopes.size := Array.size_modify

@[simp] theorem outer?_set (h : Heap) (s : ScopeId) (name : String) (value : Value) (t : ScopeId) :
    (h.set s name value).outer? t = h.outer? t := by
  unfold outer? set
  rw [Array.getElem?_modify]
  split
  · cases h.scopes[t]? <;> rfl
  · rfl

@[simp] theorem size_bindAll (h : Heap) (s : ScopeId) (pairs : List (Node × Value)) :
    (h.bindAll s pairs).scopes.size = h.scopes.size := by
  induction pairs generalizing h with
  | nil => rfl
  | cons pair more ih =>
    rw [bindAll]
    split
    · rw [ih, size_set]
    · exact ih h

@[simp] theorem outer?_bindAll (h : Heap) (s : ScopeId) (pairs : List (Node × Value)) (t : ScopeId) :
    (h.bindAll s pairs).outer? t = h.outer? t := by
  induction pairs generalizing h with
  | nil => rfl
  | cons pair more ih =>
    rw [bindAll]
    split
    · rw [ih, outer?_set]
    · exact ih h

@[simp] theorem size_openCall (h : Heap) (closure : Closure) (arguments : List Value) :
    (h.openCall closure arguments).scopes.size = h.scopes.size + 1 := by
  rw [openCall, size_bindAll]
  exact Array.size_push _

theorem values_bindAll (h : Heap) (s : ScopeId) (pairs : List (Node × Value)) :
    (h.bindAll s pairs).values = h.values := by
  induction pairs generalizing h with
  | nil => rfl
  | cons pair more ih =>
    rw [bindAll]
    split
    · exact ih _
    · exact ih h

theorem values_openCall (h : Heap) (closure : Closure) (arguments : List Value) :
    (h.openCall closure arguments).values = h.values := by
  rw [openCall, values_bindAll]
  rfl

theorem outer?_newScope (h : Heap) (outer : Option ScopeId) (s : ScopeId) :
    (h.newScope outer).2.outer? s = if s = h.scopes.size then outer else h.outer? s := by
  unfold outer? newScope
  rw [Array.getElem?_push]
  by_cases hs : s = h.scopes.size
  · rw [if_pos hs, if_pos hs]
    rfl
  · rw [if_neg hs, if_neg hs]

/-- The scope of a call lies in the scope of the function. -/
theorem outer?_openCall (h : Heap) (closure : Closure) (arguments : List Value) (s : ScopeId) :
    (h.openCall closure arguments).outer? s =
      if s = h.scopes.size then some closure.scope else h.outer? s := by
  rw [openCall, outer?_bindAll, outer?_newScope]

theorem outer?_openCall_self (h : Heap) (closure : Closure) (arguments : List Value) :
    (h.openCall closure arguments).outer? h.scopes.size = some closure.scope := by
  rw [outer?_openCall, if_pos rfl]

theorem extends_openCall (h : Heap) (closure : Closure) (arguments : List Value) :
    h.Extends (h.openCall closure arguments) where
  size_le := by rw [size_openCall]; exact Nat.le_succ _
  outer?_eq := by
    intro s hs
    rw [outer?_openCall, if_neg (Nat.ne_of_lt hs)]

end Heap

/-- What a node ends with keeps the scopes. -/
theorem Ending.extends_apply (ending : Ending) (scope : ScopeId) (m : Machine) :
    m.heap.Extends (ending.apply scope m).2.heap :=
  ending.machine_apply (m.heap.Extends ·.heap) (Heap.Extends.refl _)
    ⟨Nat.le_refl _, fun _ _ => rfl⟩ fun _ _ => ⟨by simp, fun _ _ => by simp⟩

theorem Ending.size_apply (ending : Ending) (scope : ScopeId) (m : Machine) :
    (ending.apply scope m).2.heap.scopes.size = m.heap.scopes.size :=
  ending.machine_apply (·.heap.scopes.size = m.heap.scopes.size) rfl rfl
    fun _ _ => Heap.size_set _ _ _ _

/-! ## What steps do to the trace -/

namespace Trace

@[simp] theorem events_observe (t : Trace) (scope : ScopeId) :
    (t.observe scope).events = t.events := by
  unfold observe
  split <;> rfl

theorem toList_events_enter (t : Trace) (node : Node) (scope : ScopeId) :
    (t.enter node scope).events.toList = t.events.toList ++ [.entry t.steps node scope] := by
  simp [enter, steps]

theorem toList_events_exit (t : Trace) (node : Node) (scope : ScopeId) (value : Option Value) :
    (t.exit node scope value).events.toList =
      t.events.toList ++ [.exit t.steps node scope value] := by
  simp [exit, steps]

end Trace

/-- An element of a list with one more at its end is one of the earlier ones or the last. -/
theorem getElem?_concat_eq_some {α : Type} {l : List α} {a b : α} {i : Nat} :
    (l ++ [a])[i]? = some b ↔ l[i]? = some b ∨ (i = l.length ∧ b = a) := by
  rcases Nat.lt_trichotomy i l.length with hi | rfl | hi
  · rw [List.getElem?_append_left hi]
    exact ⟨Or.inl, fun h => h.elim id fun h => absurd h.1 (Nat.ne_of_lt hi)⟩
  · rw [List.getElem?_concat_length, List.getElem?_eq_none (Nat.le_refl _)]
    exact ⟨fun h => Or.inr ⟨rfl, (Option.some.inj h).symm⟩,
      fun h => h.elim (fun h => by cases h) fun h => congrArg some h.2.symm⟩
  · rw [List.getElem?_eq_none (by rw [List.length_append]; exact hi),
      List.getElem?_eq_none (Nat.le_of_lt hi)]
    exact ⟨fun h => (by cases h), fun h => h.elim (fun h => by cases h)
      fun h => absurd h.1 (Nat.ne_of_gt hi)⟩

namespace Machine

/-- Two evaluators that differ in their heap, their trace and their depth alone. -/
structure SameKind (m m' : Machine) : Prop where
  limit : m'.limit = m.limit
  tracing : m'.tracing = m.tracing
  number : m'.number = m.number

theorem SameKind.trans {m₁ m₂ m₃ : Machine} (h : m₁.SameKind m₂) (h' : m₂.SameKind m₃) :
    m₁.SameKind m₃ :=
  ⟨h'.limit.trans h.limit, h'.tracing.trans h.tracing, h'.number.trans h.number⟩

/-- The events recorded so far. -/
def events (m : Machine) : List Event := m.trace.events.toList

theorem events_enter {m : Machine} (h : m.tracing = true) (node : Node) (scope : ScopeId) :
    (m.enter node scope).events = m.events ++ [.entry m.events.length node scope] := by
  rw [events, enter, if_pos h, Trace.toList_events_enter]
  rfl

/-- What holds of the earlier events and of the entry of a node holds of all events. -/
theorem forall_events_enter {m : Machine} (h : m.tracing = true) {P : Event → Prop} {node : Node}
    {scope : ScopeId} (hold : ∀ e ∈ m.events, P e) (hnew : P (.entry m.events.length node scope)) :
    ∀ e ∈ (m.enter node scope).events, P e := by
  rw [events_enter h]
  exact List.forall_mem_append.mpr ⟨hold, List.forall_mem_singleton.mpr hnew⟩

theorem events_leave {m : Machine} (h : m.tracing = true) (node : Node) (scope : ScopeId)
    (value : Option Value) :
    (m.leave node scope value).events =
      m.events ++ [.exit m.events.length node scope value] := by
  rw [events, leave, if_pos h, Trace.toList_events_exit]
  rfl

end Machine

/-- What a node ends with records nothing. -/
theorem Ending.trace_apply (ending : Ending) (scope : ScopeId) (m : Machine) :
    (ending.apply scope m).2.trace = m.trace :=
  ending.machine_apply (·.trace = m.trace) rfl rfl fun _ _ => rfl

@[simp] theorem Ending.events_apply (ending : Ending) (scope : ScopeId) (m : Machine) :
    (ending.apply scope m).2.events = m.events := by
  rw [Machine.events, Ending.trace_apply, Machine.events]

/-- The exit of a node is recorded after what came before it. -/
theorem Machine.events_finish {m : Machine} (h : m.tracing = true) (ending : Ending) (node : Node)
    (scope : ScopeId) (value : Option Value) :
    ((ending.apply scope m).2.leave node scope value).events =
      m.events ++ [.exit m.events.length node scope value] := by
  rw [Machine.events_leave ((ending.sameSetup_apply _ _).tracing.trans h), Ending.events_apply]

/-- What holds of the earlier events and of the exit of a node holds of all events. -/
theorem Machine.forall_events_finish {m : Machine} (h : m.tracing = true) {P : Event → Prop}
    {ending : Ending} {node : Node} {scope : ScopeId} {value : Option Value}
    (hold : ∀ e ∈ m.events, P e) (hnew : P (.exit m.events.length node scope value)) :
    ∀ e ∈ ((ending.apply scope m).2.leave node scope value).events, P e := by
  rw [Machine.events_finish h]
  exact List.forall_mem_append.mpr ⟨hold, List.forall_mem_singleton.mpr hnew⟩

namespace Config

@[simp] theorem machine_deliver (m : Machine) (value : Option Value) (frames : List Frame) :
    (deliver m value frames).machine = m := by
  cases frames <;> rfl

/-- A node that is open once a value is handed on was open before, and has no value but this one that
it did not have then. -/
theorem of_mem_deliver {m : Machine} {value : Option Value} {frames : List Frame} {g : Frame}
    (hg : g ∈ (deliver m value frames).frames) :
    ∃ f ∈ frames, g.node = f.node ∧ g.scope = f.scope ∧
      ∀ v, some v ∈ g.done → value = some v ∨ some v ∈ f.done := by
  cases frames with
  | nil => exact absurd hg List.not_mem_nil
  | cons f rest =>
    rcases List.mem_cons.mp hg with rfl | hg
    · refine ⟨f, List.mem_cons_self, rfl, rfl, fun v hv => ?_⟩
      rcases List.mem_append.mp hv with hv | hv
      · exact Or.inr hv
      · exact Or.inl (List.mem_singleton.mp hv).symm
    · exact ⟨g, List.mem_cons_of_mem _ hg, rfl, rfl, fun _ => Or.inr⟩

/-- Where a value is handed on, no node is asked for. -/
theorem control_deliver_ne_enter {m : Machine} {value : Option Value} {frames : List Frame}
    {node : Node} {scope : ScopeId} : (deliver m value frames).control ≠ .enter node scope := by
  cases frames <;> exact nofun

variable {c c' : Config}

/-- A step keeps the limit of the evaluator, whether it records, and its constants. -/
theorem Step.sameKind (h : c.Step c') : c.machine.SameKind c'.machine := by
  cases h with
  | enter _ => exact ⟨rfl, rfl, rfl⟩
  | visit _ => exact ⟨rfl, rfl, rfl⟩
  | call _ => exact ⟨rfl, rfl, rfl⟩
  | @finish m f _ ending _ =>
    rw [machine_deliver]
    have hsetup := ending.sameSetup_apply f.scope m
    exact ⟨hsetup.limit, hsetup.tracing, hsetup.number⟩

theorem Reaches.sameKind (h : c.Reaches c') : c.machine.SameKind c'.machine := by
  induction h with
  | refl => exact ⟨rfl, rfl, rfl⟩
  | tail _ hstep ih => exact ih.trans hstep.sameKind

theorem Reaches.tracing_eq (h : c.Reaches c') : c'.machine.tracing = c.machine.tracing :=
  (Reaches.sameKind h).tracing

theorem Step.null_eq (h : c.Step c') : c'.machine.null = c.machine.null :=
  Machine.null_eq h.sameKind.number

theorem Reaches.null_eq (h : c.Reaches c') : c'.machine.null = c.machine.null :=
  Machine.null_eq (Reaches.sameKind h).number

/-- A step adds scopes at most. -/
theorem Step.heap_extends (h : c.Step c') : c.machine.heap.Extends c'.machine.heap := by
  cases h with
  | enter _ => exact Heap.Extends.refl _
  | visit _ => exact Heap.Extends.refl _
  | call _ => exact Heap.extends_openCall _ _ _
  | finish _ =>
    rw [machine_deliver]
    exact Ending.extends_apply _ _ _

theorem Reaches.heap_extends (h : c.Reaches c') : c.machine.heap.Extends c'.machine.heap := by
  induction h with
  | refl => exact Heap.Extends.refl _
  | tail _ hstep ih => exact ih.trans hstep.heap_extends

/-- A step records no event or one, whose step is its position. -/
theorem Step.events_eq (ht : c.machine.tracing = true) (h : c.Step c') :
    c'.machine.events = c.machine.events ∨
      ∃ e : Event, e.step = c.machine.events.length ∧ c'.machine.events = c.machine.events ++ [e] := by
  cases h with
  | enter _ => exact Or.inr ⟨_, rfl, Machine.events_enter ht _ _⟩
  | visit _ => exact Or.inl rfl
  | call _ => exact Or.inl rfl
  | @finish m f rest ending move =>
    refine Or.inr ⟨.exit m.events.length f.node f.scope (ending.apply f.scope m).1, rfl, ?_⟩
    rw [machine_deliver, Machine.events_finish ht]

/-- Events stay. -/
theorem Reaches.events_prefix (ht : c.machine.tracing = true) (h : c.Reaches c') :
    c.machine.events <+: c'.machine.events := by
  induction h with
  | refl => exact List.prefix_rfl
  | tail hreach hstep ih =>
    rcases hstep.events_eq (Reaches.tracing_eq hreach |>.trans ht) with heq | ⟨e, _, heq⟩
    · rw [heq]
      exact ih
    · rw [heq]
      exact ih.trans (List.prefix_append _ _)

/-- **Each event belongs to one step.** The configuration before it has recorded what precedes the
event, the one after it the event too. -/
theorem Reaches.at_event (ht : c.machine.tracing = true) (hempty : c.machine.events = [])
    (h : c.Reaches c') {i : Nat} {e : Event} (he : c'.machine.events[i]? = some e) :
    ∃ c₁ c₂, c.Reaches c₁ ∧ c₁.Step c₂ ∧ c₂.Reaches c' ∧
      c₁.machine.events = c'.machine.events.take i ∧
      c₂.machine.events = c₁.machine.events ++ [e] := by
  induction h with
  | refl => rw [hempty] at he; exact absurd he (by simp)
  | @tail c₁ c₂ hreach hstep ih =>
    rcases hstep.events_eq (Reaches.tracing_eq hreach |>.trans ht) with heq | ⟨e', _, heq⟩
    · rw [heq] at he
      obtain ⟨d₁, d₂, h₁, h₂, h₃, htake, hlast⟩ := ih he
      exact ⟨d₁, d₂, h₁, h₂, h₃.tail hstep, by rw [heq]; exact htake, hlast⟩
    · rw [heq, getElem?_concat_eq_some] at he
      rcases he with he | ⟨rfl, rfl⟩
      · have hi := (List.getElem?_eq_some_iff.mp he).1
        obtain ⟨d₁, d₂, h₁, h₂, h₃, htake, hlast⟩ := ih he
        refine ⟨d₁, d₂, h₁, h₂, h₃.tail hstep, ?_, hlast⟩
        rw [heq, List.take_append_of_le_length (Nat.le_of_lt hi)]
        exact htake
      · refine ⟨c₁, c₂, hreach, hstep, Relation.ReflTransGen.refl, ?_, heq⟩
        rw [heq, List.take_left]

/-- A step that records an entry enters the node asked for. -/
theorem Step.of_entry (ht : c.machine.tracing = true) (hstep : c.Step c') {step : Nat} {node : Node}
    {scope : ScopeId}
    (he : c'.machine.events = c.machine.events ++ [.entry step node scope]) :
    c.control = .enter node scope ∧ c'.control = .advance ∧
      c'.frames = ⟨c.machine.events.length, node, scope, []⟩ :: c.frames := by
  cases hstep with
  | enter _ =>
    rw [Machine.events_enter ht] at he
    obtain ⟨_, rfl, rfl⟩ := Event.entry.inj (List.singleton_inj.mp (List.append_cancel_left he))
    exact ⟨rfl, rfl, rfl⟩
  | visit _ => exact absurd (congrArg List.length he) (by simp)
  | call _ => exact absurd (congrArg List.length he) (by simp [Machine.events])
  | finish _ =>
    rw [machine_deliver, Machine.events_finish ht] at he
    exact absurd (List.append_cancel_left he) (by simp)

/-- A step that records an exit leaves the innermost node with what it ends with. -/
theorem Step.of_exit (ht : c.machine.tracing = true) (hstep : c.Step c') {step : Nat} {node : Node}
    {scope : ScopeId} {value : Option Value}
    (he : c'.machine.events = c.machine.events ++ [.exit step node scope value]) :
    ∃ f rest ending, c.control = .advance ∧ c.frames = f :: rest ∧
      f.node.move c.machine.null f.done = .finish ending ∧ f.node = node ∧ f.scope = scope ∧
      (ending.apply f.scope c.machine).1 = value := by
  cases hstep with
  | enter _ =>
    rw [Machine.events_enter ht] at he
    exact absurd (List.append_cancel_left he) (by simp)
  | visit _ => exact absurd (congrArg List.length he) (by simp)
  | call _ => exact absurd (congrArg List.length he) (by simp [Machine.events])
  | @finish m f rest ending move =>
    rw [machine_deliver, Machine.events_finish ht] at he
    obtain ⟨_, rfl, rfl, hvalue⟩ :=
      Event.exit.inj (List.singleton_inj.mp (List.append_cancel_left he))
    exact ⟨f, rest, ending, rfl, rfl, move, rfl, rfl, hvalue⟩

/-! ## Recorded runs -/

/-- A configuration that a recorded evaluation comes to. -/
structure Recorded (m : Machine) (root : Node) (scope : ScopeId) (c : Config) : Prop where
  tracing : m.tracing = true
  events_eq : m.events = []
  scope_lt : scope < m.heap.scopes.size
  reaches : (start m root scope).Reaches c

namespace Recorded

variable {m : Machine} {root : Node} {scope : ScopeId}

theorem tracing_eq (h : c.Recorded m root scope) : c.machine.tracing = true :=
  (Reaches.tracing_eq h.reaches).trans h.tracing

theorem null_eq (h : c.Recorded m root scope) : c.machine.null = m.null :=
  Reaches.null_eq h.reaches

/-- What the start has and every step keeps. -/
theorem induct {P : Config → Prop} (hstart : P (start m root scope))
    (hstep : ∀ c c', c.Recorded m root scope → P c → c.Step c' → P c')
    (h : c.Recorded m root scope) : P c := by
  obtain ⟨ht, hevents, hs, hreach⟩ := h
  induction hreach with
  | refl => exact hstart
  | tail hreach hlast ih => exact hstep _ _ ⟨ht, hevents, hs, hreach⟩ ih hlast

/-- The step that records an event, and the moments before and after it. -/
theorem at_event (h : c.Recorded m root scope) {i : Nat} {e : Event}
    (he : c.machine.events[i]? = some e) :
    ∃ c₁ c₂ : Config, c₁.Recorded m root scope ∧ c₁.Step c₂ ∧ c₂.Reaches c ∧
      c₁.machine.events = c.machine.events.take i ∧
      c₂.machine.events = c.machine.events.take (i + 1) ∧
      c₂.machine.events = c₁.machine.events ++ [e] := by
  obtain ⟨c₁, c₂, hbefore, hstep, hafter, htake, hlast⟩ :=
    Reaches.at_event h.tracing h.events_eq h.reaches he
  refine ⟨c₁, c₂, ⟨h.tracing, h.events_eq, h.scope_lt, hbefore⟩, hstep, hafter, htake, ?_, hlast⟩
  rw [hlast, htake, List.take_add_one, he]
  rfl

/-- The step of an event is its position. -/
theorem step_eq (h : c.Recorded m root scope) {i : Nat} {e : Event}
    (he : c.machine.events[i]? = some e) : e.step = i := by
  obtain ⟨c₁, c₂, hrec, hstep, _, htake, _, hlast⟩ := h.at_event he
  have hi : i < c.machine.events.length := (List.getElem?_eq_some_iff.mp he).1
  rcases hstep.events_eq hrec.tracing_eq with heq | ⟨e', hstep', heq⟩
  · rw [heq] at hlast
    exact absurd (congrArg List.length hlast) (by simp)
  · rw [heq] at hlast
    rw [← List.singleton_inj.mp (List.append_cancel_left hlast), hstep', htake,
      List.length_take_of_le (Nat.le_of_lt hi)]

end Recorded

end Config

/-! ## Runs of an evaluation -/

/-- The run of an evaluation: it comes to a configuration with the heap and the trace that the
evaluator has in the end. It stops there if there is a value, and is stuck there if there is none. -/
theorem Machine.eval_reaches (m : Machine) (node : Node) (scope : ScopeId) :
    ∃ c : Config, (Config.start m node scope).Reaches c ∧
      (m.eval node scope).2.heap = c.machine.heap ∧
      (m.eval node scope).2.trace = c.machine.trace ∧
      (∀ value, (m.eval node scope).1 = .ok value → c.control = .stop value ∧ c.frames = []) ∧
      (∀ o, (m.eval node scope).1 = .error o → c.Stuck) := by
  have h := m.eval_steps node scope
  rcases heval : m.eval node scope with ⟨o | value, m'⟩
  · rw [heval] at h
    obtain ⟨c, hreach, hstuck, _, hm⟩ := h
    exact ⟨c, hreach, by rw [hm], by rw [hm], fun value hv => absurd hv (by simp),
      fun _ _ => hstuck⟩
  · rw [heval] at h
    refine ⟨_, h.1, rfl, rfl, ?_, fun o ho => absurd ho (by simp)⟩
    intro value' hv
    obtain rfl := Except.ok.inj hv
    exact ⟨rfl, rfl⟩

/-- The run of a new evaluator that records. -/
theorem Machine.eval_recorded (heap : Heap) (limit : Nat) (node : Node) {scope : ScopeId}
    (hs : scope < heap.scopes.size) :
    ∃ c : Config, c.Recorded (Machine.new heap limit true) node scope ∧
      ((Machine.new heap limit true).eval node scope).2.heap = c.machine.heap ∧
      ((Machine.new heap limit true).eval node scope).2.events = c.machine.events ∧
      ∀ value, ((Machine.new heap limit true).eval node scope).1 = .ok value →
        c.control = .stop value ∧ c.frames = [] := by
  obtain ⟨c, hreach, hheap, htrace, hok, _⟩ := (Machine.new heap limit true).eval_reaches node scope
  exact ⟨c, ⟨rfl, rfl, hs, hreach⟩, hheap, by rw [events, htrace, events], hok⟩

/-- An evaluation that the limit allows to start records that its root is entered. -/
theorem Machine.entry_mem_eval {m : Machine} (ht : m.tracing = true) (hd : m.depth < m.limit)
    (node : Node) (scope : ScopeId) :
    m.events ++ [.entry m.events.length node scope] <+: (m.eval node scope).2.events := by
  obtain ⟨c, hreach, _, htrace, hok, herror⟩ := m.eval_reaches node scope
  have hevents : (m.eval node scope).2.events = c.machine.events := by
    rw [events, htrace, events]
  rw [hevents, ← Machine.events_enter ht]
  rcases Relation.ReflTransGen.cases_head hreach with rfl | ⟨c₁, hstep, hrest⟩
  · -- without any step there is neither a value nor a limit in the way
    cases hout : (m.eval node scope).1 with
    | ok value => exact absurd (hok value hout).1 (by simp [Config.start])
    | error o => exact absurd (herror o hout).2 (Nat.not_le.mpr hd)
  · cases hstep with
    | enter _ => exact Config.Reaches.events_prefix ht hrest

end TraceTree

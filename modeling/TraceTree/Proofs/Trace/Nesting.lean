import Mathlib
import TraceTree.Proofs.Eval.Move
import TraceTree.Proofs.Eval.Run

set_option autoImplicit false

/-! # Traces are well nested

`openNodes` reads the nodes that are being evaluated off a list of events, as if entries were
opening brackets and exits closing ones. `WellNested` says that the events of an evaluation fit
together in this way, and where each node that is entered comes from: from a field of the innermost
open node, or from the function that an open call calls.

The run of an evaluation keeps `Config.Nested`: its frames are the open nodes of its events. -/

namespace TraceTree

/-! ## Open nodes -/

/-- A node whose entry is not closed yet, the nodes entered directly inside it so far, and the
values that these were left with. -/
structure OpenNode where
  opened : Nat
  node : Node
  scope : ScopeId
  parts : List Node
  results : List (Option Value)

/-- Note that a node is entered directly inside the innermost open one. -/
def notePart (node : Node) : List OpenNode → List OpenNode
  | [] => []
  | o :: outer => { o with parts := o.parts ++ [node] } :: outer

/-- Note that a node directly inside the innermost open one is left. -/
def noteResult (value : Option Value) : List OpenNode → List OpenNode
  | [] => []
  | o :: outer => { o with results := o.results ++ [value] } :: outer

/-- The open nodes after an event, the innermost first. -/
def Event.track (nodes : List OpenNode) : Event → List OpenNode
  | entry step node scope => ⟨step, node, scope, [], []⟩ :: notePart node nodes
  | exit _ _ _ value => noteResult value nodes.tail

/-- The open nodes after some events, the innermost first. -/
def openNodes (events : List Event) : List OpenNode := events.foldl Event.track []

@[simp] theorem openNodes_nil : openNodes [] = [] := rfl

@[simp] theorem openNodes_concat (events : List Event) (e : Event) :
    openNodes (events ++ [e]) = e.track (openNodes events) := by
  rw [openNodes, List.foldl_append]
  rfl

/-! ## Where nodes come from -/

/-- A node is the next field of an open one on a way that an evaluation goes through its fields, and
is evaluated in its scope. -/
def OpenNode.EntersField (o : OpenNode) (node : Node) (scope : ScopeId) : Prop :=
  scope = o.scope ∧ ∃ walk ∈ o.node.walks, walk.Sublist o.node.children ∧ o.parts ++ [node] <+: walk

/-- A node is the body of the function that an open call calls: the function is the value that the
callee was left with, all arguments are evaluated, and the scope is a new one inside the scope of
the function. `earlier` are the events so far. -/
def OpenNode.EntersBody (h : Heap) (earlier : List Event) (o : OpenNode) (node : Node)
    (scope : ScopeId) : Prop :=
  ∃ id callee arguments valueId closure,
    o.node = .call id callee arguments ∧ o.parts = callee :: arguments ∧
    o.results.length = o.parts.length ∧
    o.results.head? = some (some (.function valueId closure)) ∧ node = closure.body ∧
    (∀ e ∈ earlier, e.scope ≠ scope) ∧ h.outer? scope = some closure.scope

/-- Events that are an account of the evaluation of `root` in `scope`; `h` tells the scopes around
scopes. -/
structure WellNested (h : Heap) (root : Node) (scope : ScopeId) (events : List Event) : Prop where
  /-- The step of an event is its position. -/
  step_eq : ∀ i (e : Event), events[i]? = some e → e.step = i
  /-- The root is entered first. -/
  first : ∀ e, events[0]? = some e → e = .entry 0 root scope
  /-- An exit closes the innermost open node. -/
  exits : ∀ i step node scope value, events[i]? = some (.exit step node scope value) →
    ∃ o outer, openNodes (events.take i) = o :: outer ∧ o.node = node ∧ o.scope = scope
  /-- Every other entry comes from the innermost open node. -/
  entries : ∀ i step node scope, 0 < i → events[i]? = some (.entry step node scope) →
    ∃ o outer, openNodes (events.take i) = o :: outer ∧
      (o.EntersField node scope ∨ o.EntersBody h (events.take i) node scope)

/-! ## The frames of a run are the open nodes of its events -/

/-- The parts of an open node are those an evaluation goes through, as far as it has come. -/
def OpenNode.Walked (o : OpenNode) : Prop :=
  (∃ walk ∈ o.node.walks, o.parts <+: walk) ∨
    ∃ id callee arguments body, o.node = .call id callee arguments ∧
      o.parts = callee :: arguments ++ [body]

/-- A frame and an open node are the same; `inner` of its parts is still being evaluated. -/
structure Frame.Matches (inner : Nat) (f : Frame) (o : OpenNode) : Prop where
  opened : o.opened = f.opened
  node : o.node = f.node
  scope : o.scope = f.scope
  results : o.results = f.done
  parts : o.parts.length = f.done.length + inner
  walked : o.Walked

/-- Frames and open nodes are the same, and the outermost one is that of the root. `inner` parts of
the innermost node are being evaluated, and the part of every other one. -/
inductive Tracks (root : Node) (rootScope : ScopeId) : Nat → List Frame → List OpenNode → Prop where
  | nil {inner : Nat} : Tracks root rootScope inner [] []
  | cons {inner : Nat} {f : Frame} {o : OpenNode} {rest : List Frame} {outer : List OpenNode}
      (innermost : f.Matches inner o)
      (outermost : rest = [] → f.node = root ∧ f.scope = rootScope)
      (others : Tracks root rootScope 1 rest outer) :
      Tracks root rootScope inner (f :: rest) (o :: outer)

/-- A node may be entered: it is the root, or comes from the innermost open node. -/
def Requested (root : Node) (rootScope : ScopeId) (h : Heap) (earlier : List Event) (node : Node)
    (scope : ScopeId) : List OpenNode → Prop
  | [] => earlier = [] ∧ node = root ∧ scope = rootScope
  | o :: _ => o.EntersField node scope ∨ o.EntersBody h earlier node scope

/-- What every run keeps: the events tell the frames, and all scopes exist. -/
structure Config.Nested (root : Node) (rootScope : ScopeId) (c : Config) : Prop where
  tracks : Tracks root rootScope 0 c.frames (openNodes c.machine.events)
  events_lt : ∀ e ∈ c.machine.events, e.scope < c.machine.heap.scopes.size
  frames_lt : ∀ f ∈ c.frames, f.scope < c.machine.heap.scopes.size
  requested : ∀ node scope, c.control = .enter node scope →
    scope < c.machine.heap.scopes.size ∧
      Requested root rootScope c.machine.heap c.machine.events node scope
        (openNodes c.machine.events)
  stopped : ∀ value, c.control = .stop value →
    c.frames = [] ∧ ∃ step, c.machine.events.getLast? = some (.exit step root rootScope value)

section

variable {root : Node} {rootScope : ScopeId} {f : Frame} {rest : List Frame} {nodes : List OpenNode}

/-- The next field of a node comes after the parts evaluated so far. -/
theorem Frame.Matches.entersField {null : Value} {o : OpenNode} {part : Node} (h : f.Matches 0 o)
    (hmove : f.node.move null f.done = .visit part) : o.EntersField part f.scope := by
  obtain ⟨walk, hwalk, hpart, hagree⟩ := Node.walk_of_visit hmove
  refine ⟨h.scope.symm, walk, by rw [h.node]; exact hwalk,
    by rw [h.node]; exact Node.sublist_children_of_mem_walks hwalk, ?_⟩
  have hlt : f.done.length < walk.length := (List.getElem?_eq_some_iff.mp hpart).1
  rcases h.walked with ⟨other, hother, hprefix⟩ | ⟨id, callee, arguments, body, hnode, hparts⟩
  · rw [h.node] at hother
    -- all walks agree on the parts evaluated so far
    have hparts : o.parts = walk.take f.done.length := by
      rw [← hagree other hother, List.prefix_iff_eq_take.mp hprefix, h.parts]
      simp
    rw [hparts]
    have htake : walk.take f.done.length ++ [part] = walk.take (f.done.length + 1) := by
      rw [List.take_add_one, hpart]
      rfl
    rw [htake]
    exact List.take_prefix _ _
  · -- a call whose body was evaluated has no field left
    rw [h.node] at hnode
    rw [hnode, Node.walks, List.mem_singleton] at hwalk
    have hlen := h.parts
    rw [hparts] at hlen
    rw [hwalk] at hlt
    simp at hlen hlt
    omega

/-- The body of a function is entered in a scope that is made for it. -/
theorem Frame.Matches.entersBody {m : Machine} {o : OpenNode} {closure : Closure}
    {arguments : List Value} (h : f.Matches 0 o)
    (hmove : f.node.move m.null f.done = .call closure arguments)
    (hevents : ∀ e ∈ m.events, e.scope < m.heap.scopes.size) :
    o.EntersBody (m.heap.openCall closure arguments) m.events closure.body m.heap.scopes.size := by
  obtain ⟨id, callee, operands, function, others, hnode, hdone, hlen, _, _, _, id', hfunction⟩ :=
    Node.of_move_eq_call hmove
  have hfunction' : function = some (.function id' closure) := by
    cases function with
    | none => exact absurd hfunction (by simp [Machine.null])
    | some value => rw [← hfunction]; rfl
  have hparts : o.parts = callee :: operands := by
    have hlen' := h.parts
    rcases h.walked with ⟨walk, hwalk, hprefix⟩ | ⟨id₂, callee₂, operands₂, body, hnode₂, hparts⟩
    · rw [h.node, hnode, Node.walks, List.mem_singleton] at hwalk
      rw [hwalk] at hprefix
      exact hprefix.eq_of_length (by rw [hlen', hdone]; simp [hlen])
    · rw [h.node, hnode] at hnode₂
      obtain ⟨rfl, rfl, rfl⟩ := Node.call.inj hnode₂
      rw [hparts, hdone] at hlen'
      simp at hlen'
      omega
  refine ⟨id, callee, operands, id', closure, by rw [h.node, hnode], hparts, ?_, ?_, rfl, ?_, ?_⟩
  · rw [h.results, h.parts]
    rfl
  · rw [h.results, hdone, hfunction']
    rfl
  · intro e he
    exact Nat.ne_of_lt (hevents e he)
  · exact Heap.outer?_openCall_self _ _ _

/-- An open node may take the part that it asks for. -/
theorem OpenNode.walked_concat {h : Heap} {earlier : List Event} {o : OpenNode} {node : Node}
    {scope : ScopeId} (hr : o.EntersField node scope ∨ o.EntersBody h earlier node scope) :
    OpenNode.Walked { o with parts := o.parts ++ [node] } := by
  rcases hr with ⟨_, walk, hwalk, _, hprefix⟩ | ⟨id, callee, arguments, _, closure, hnode, hparts, _⟩
  · exact Or.inl ⟨walk, hwalk, hprefix⟩
  · exact Or.inr ⟨id, callee, arguments, node, hnode, by rw [hparts]⟩

/-- Entering a node opens it. -/
theorem Tracks.enter {h : Heap} {earlier : List Event} {node : Node} {scope : ScopeId} (step : Nat)
    (ht : Tracks root rootScope 0 rest nodes)
    (hr : Requested root rootScope h earlier node scope nodes) :
    Tracks root rootScope 0 (⟨step, node, scope, []⟩ :: rest)
      (⟨step, node, scope, [], []⟩ :: notePart node nodes) := by
  have hwalked : OpenNode.Walked ⟨step, node, scope, [], []⟩ := by
    obtain ⟨walk, hwalk⟩ := node.exists_mem_walks
    exact Or.inl ⟨walk, hwalk, List.nil_prefix⟩
  refine Tracks.cons ⟨rfl, rfl, rfl, rfl, rfl, hwalked⟩ ?_ ?_
  · rintro rfl
    cases ht
    exact hr.2
  · cases ht with
    | nil => exact Tracks.nil
    | cons innermost outermost others =>
      refine Tracks.cons ?_ outermost others
      exact ⟨innermost.opened, innermost.node, innermost.scope, innermost.results,
        by simp [innermost.parts], OpenNode.walked_concat hr⟩

/-- Leaving a node hands its value to the node around it. -/
theorem Tracks.leave {value : Option Value} (ht : Tracks root rootScope 1 (f :: rest) nodes) :
    Tracks root rootScope 0 ({ f with done := f.done ++ [value] } :: rest)
      (noteResult value nodes) := by
  cases ht with
  | cons innermost outermost others =>
    refine Tracks.cons ?_ outermost others
    exact ⟨innermost.opened, innermost.node, innermost.scope, by simp [innermost.results],
      by simp [innermost.parts], innermost.walked⟩

theorem Tracks.deliver {value : Option Value} (ht : Tracks root rootScope 1 rest nodes)
    (m : Machine) :
    Tracks root rootScope 0 (Config.deliver m value rest).frames (noteResult value nodes) := by
  cases rest with
  | nil =>
    cases ht
    exact Tracks.nil
  | cons g rest => exact ht.leave

end

namespace Config

variable {root : Node} {rootScope : ScopeId} {c c' : Config}

/-- An evaluation starts with nothing open. -/
theorem nested_start (m : Machine) (hevents : m.events = []) (hs : rootScope < m.heap.scopes.size) :
    (start m root rootScope).Nested root rootScope where
  tracks := by
    show Tracks root rootScope 0 [] (openNodes m.events)
    rw [hevents]
    exact Tracks.nil
  events_lt := by
    show ∀ e ∈ m.events, _
    rw [hevents]
    exact fun e he => absurd he List.not_mem_nil
  frames_lt := fun f hf => absurd hf List.not_mem_nil
  requested := by
    intro node scope hcontrol
    obtain ⟨rfl, rfl⟩ := Control.enter.inj hcontrol
    refine ⟨hs, ?_⟩
    show Requested _ _ _ m.events _ _ (openNodes m.events)
    rw [hevents]
    exact ⟨rfl, rfl, rfl⟩
  stopped := fun value hcontrol => by cases hcontrol

/-- **A step keeps the frames and the open nodes the same.** -/
theorem Step.nested (ht : c.machine.tracing = true) (hstep : c.Step c')
    (h : c.Nested root rootScope) : c'.Nested root rootScope := by
  cases hstep with
  | @enter m node scope frames allowed =>
    obtain ⟨hscope, hrequested⟩ := h.requested node scope rfl
    have hevents : (m.enter node scope).events = m.events ++ [.entry m.trace.steps node scope] :=
      Machine.events_enter ht node scope
    refine ⟨?_, ?_, ?_, fun _ _ hc => (by cases hc), fun _ hc => (by cases hc)⟩
    · show Tracks root rootScope 0 _ (openNodes (m.enter node scope).events)
      rw [hevents, openNodes_concat]
      exact Tracks.enter _ h.tracks hrequested
    · exact Machine.forall_events_enter ht h.events_lt hscope
    · exact List.forall_mem_cons.mpr ⟨hscope, h.frames_lt⟩
  | @visit m f rest part move =>
    refine ⟨h.tracks, h.events_lt, h.frames_lt, ?_, fun _ hc => (by cases hc)⟩
    intro node scope hcontrol
    obtain ⟨rfl, rfl⟩ := Control.enter.inj hcontrol
    refine ⟨h.frames_lt f List.mem_cons_self, ?_⟩
    show Requested _ _ _ m.events _ _ (openNodes m.events)
    have htracks : Tracks root rootScope 0 (f :: rest) (openNodes m.events) := h.tracks
    generalize openNodes m.events = nodes at htracks
    cases htracks with
    | cons innermost _ _ => exact Or.inl (innermost.entersField move)
  | @call m f rest closure arguments move =>
    have hsize : m.heap.scopes.size < (m.heap.openCall closure arguments).scopes.size := by
      rw [Heap.size_openCall]
      exact Nat.lt_succ_self _
    refine ⟨h.tracks, fun e he => Nat.lt_trans (h.events_lt e he) hsize,
      fun f hf => Nat.lt_trans (h.frames_lt f hf) hsize, ?_, fun _ hc => (by cases hc)⟩
    intro node scope hcontrol
    obtain ⟨rfl, rfl⟩ := Control.enter.inj hcontrol
    refine ⟨hsize, ?_⟩
    show Requested _ _ _ m.events _ _ (openNodes m.events)
    have htracks : Tracks root rootScope 0 (f :: rest) (openNodes m.events) := h.tracks
    generalize openNodes m.events = nodes at htracks
    cases htracks with
    | cons innermost _ _ => exact Or.inr (innermost.entersBody move h.events_lt)
  | @finish m f rest ending move =>
    have hsize : ∀ {n : Nat}, n < m.heap.scopes.size →
        n < (ending.apply f.scope m).2.heap.scopes.size := by
      intro n hn
      rw [Ending.size_apply]
      exact hn
    have hevents := Machine.events_finish ht ending f.node f.scope (ending.apply f.scope m).1
    have hevents_lt : ∀ e ∈ ((ending.apply f.scope m).2.leave f.node f.scope
        (ending.apply f.scope m).1).events, e.scope < (ending.apply f.scope m).2.heap.scopes.size :=
      Machine.forall_events_finish ht (fun e he => hsize (h.events_lt e he))
        (hsize (h.frames_lt f List.mem_cons_self))
    have htracks : Tracks root rootScope 0 (f :: rest) (openNodes m.events) := h.tracks
    refine ⟨?_, by rwa [machine_deliver], ?_, fun _ _ hc => absurd hc control_deliver_ne_enter, ?_⟩
    · rw [machine_deliver, hevents, openNodes_concat]
      generalize openNodes m.events = nodes at htracks
      cases htracks with
      | cons _ _ others => exact others.deliver _
    · intro g hg
      obtain ⟨f', hf', _, hscope, _⟩ := of_mem_deliver hg
      rw [machine_deliver, hscope]
      exact hsize (h.frames_lt f' (List.mem_cons_of_mem _ hf'))
    · intro value hcontrol
      cases rest with
      | nil =>
        -- the evaluation stops with the exit of the root
        refine ⟨rfl, m.events.length, ?_⟩
        show (Machine.leave _ _ _ _).events.getLast? = _
        generalize openNodes m.events = nodes at htracks
        cases htracks with
        | cons _ outermost _ =>
          obtain ⟨hnode, hscope⟩ := outermost rfl
          rw [hevents, ← Control.stop.inj hcontrol, List.getLast?_concat, hnode, hscope]
      | cons g rest => cases hcontrol

theorem Recorded.nested {m : Machine} (h : c.Recorded m root rootScope) :
    c.Nested root rootScope :=
  h.induct (nested_start m h.events_eq h.scope_lt)
    fun _ _ hrec hnested hstep => hstep.nested hrec.tracing_eq hnested

/-- The innermost frame of a run is the innermost open node. -/
theorem Nested.openNodes_eq (h : c.Nested root rootScope) {f : Frame} {rest : List Frame}
    (hframes : c.frames = f :: rest) :
    ∃ o outer, openNodes c.machine.events = o :: outer ∧ f.Matches 0 o ∧
      Tracks root rootScope 1 rest outer := by
  have htracks := h.tracks
  rw [hframes] at htracks
  generalize openNodes c.machine.events = nodes at htracks
  cases htracks with
  | cons innermost _ others => exact ⟨_, _, rfl, innermost, others⟩

/-- **The events of a run are well nested.** -/
theorem Recorded.wellNested {m : Machine} (h : c.Recorded m root rootScope) :
    WellNested c.machine.heap root rootScope c.machine.events := by
  refine ⟨fun _ _ he => h.step_eq he, ?_, ?_, ?_⟩
  · intro e he
    obtain ⟨c₁, c₂, hrec, hstep, _, htake, _, hlast⟩ := h.at_event he
    rw [List.take_zero] at htake
    cases e with
    | entry step node scope =>
      have hcontrol := (hstep.of_entry hrec.tracing_eq hlast).1
      obtain ⟨_, hrequested⟩ := hrec.nested.requested node scope hcontrol
      rw [htake] at hrequested
      obtain ⟨_, rfl, rfl⟩ := hrequested
      obtain rfl : step = 0 := h.step_eq he
      rfl
    | exit step node scope value =>
      obtain ⟨f, rest, _, _, hframes, _⟩ := hstep.of_exit hrec.tracing_eq hlast
      obtain ⟨o, outer, hopen, _⟩ := hrec.nested.openNodes_eq hframes
      rw [htake] at hopen
      exact absurd hopen (by simp)
  · intro i step node scope value he
    obtain ⟨c₁, c₂, hrec, hstep, _, htake, _, hlast⟩ := h.at_event he
    obtain ⟨f, rest, _, _, hframes, _, rfl, rfl, _⟩ := hstep.of_exit hrec.tracing_eq hlast
    obtain ⟨o, outer, hopen, hmatch, _⟩ := hrec.nested.openNodes_eq hframes
    exact ⟨o, outer, by rw [← htake, hopen], hmatch.node, hmatch.scope⟩
  · intro i step node scope hi he
    obtain ⟨c₁, c₂, hrec, hstep, hafter, htake, _, hlast⟩ := h.at_event he
    have hcontrol := (hstep.of_entry hrec.tracing_eq hlast).1
    obtain ⟨hscope, hrequested⟩ := hrec.nested.requested node scope hcontrol
    have hextends : c₁.machine.heap.Extends c.machine.heap :=
      hstep.heap_extends.trans (Reaches.heap_extends hafter)
    rw [htake] at hrequested
    cases hopen : openNodes (c.machine.events.take i) with
    | nil =>
      -- with nothing open only the root is asked for, which is event 0
      rw [hopen] at hrequested
      have hlt := (List.getElem?_eq_some_iff.mp he).1
      have hlen := congrArg List.length hrequested.1
      rw [List.length_take_of_le (Nat.le_of_lt hlt)] at hlen
      exact absurd hlen (Nat.ne_of_gt hi)
    | cons o outer =>
      rw [hopen] at hrequested
      refine ⟨o, outer, rfl, ?_⟩
      rcases hrequested with hfield | hbody
      · exact Or.inl hfield
      · obtain ⟨id, callee, arguments, valueId, closure, h₁, h₂, h₃, h₄, h₅, h₆, h₇⟩ := hbody
        exact Or.inr ⟨id, callee, arguments, valueId, closure, h₁, h₂, h₃, h₄, h₅, h₆,
          by rw [hextends.outer?_eq scope hscope, h₇]⟩

end Config

/-! ## Recorded traces -/

/-- **The trace of an evaluation is well nested.** Whatever is evaluated and however deep it may go,
the events account for the evaluation; the root is entered first if anything is; and if there is a
value, all that was entered is left again, the root last and with that value. -/
theorem Machine.wellNested_eval (heap : Heap) (limit : Nat) (root : Node) (scope : ScopeId)
    (hs : scope < heap.scopes.size) :
    let after := ((Machine.new heap limit true).eval root scope).2
    WellNested after.heap root scope after.events ∧
      (0 < limit → after.events[0]? = some (.entry 0 root scope)) ∧
      ∀ value, ((Machine.new heap limit true).eval root scope).1 = .ok value →
        openNodes after.events = [] ∧
        after.events.getLast? = some (.exit (after.events.length - 1) root scope value) := by
  intro after
  obtain ⟨c, hrec, hheap, hevents, hok⟩ := Machine.eval_recorded heap limit root hs
  have hwell : WellNested after.heap root scope after.events := by
    rw [hevents, hheap]
    exact hrec.wellNested
  refine ⟨hwell, ?_, ?_⟩
  · intro hlimit
    have hfirst : [Event.entry 0 root scope] <+: after.events :=
      Machine.entry_mem_eval (m := Machine.new heap limit true) rfl hlimit root scope
    exact List.prefix_iff_getElem?.mp hfirst 0 (Nat.zero_lt_one)
  · intro value hvalue
    obtain ⟨hcontrol, hframes⟩ := hok value hvalue
    obtain ⟨_, step, hlast⟩ := hrec.nested.stopped value hcontrol
    have htracks := hrec.nested.tracks
    rw [hframes] at htracks
    rw [hevents]
    refine ⟨?_, ?_⟩
    · generalize openNodes c.machine.events = nodes at htracks
      cases htracks
      rfl
    · rw [hlast]
      rw [List.getLast?_eq_getElem?, ← hevents] at hlast
      have hstep := hwell.step_eq _ _ hlast
      rw [hevents] at hstep
      rw [← hstep]
      rfl

/-- The call `fn(x) { x }(5)`, which enters a function. -/
def identityCall : Node :=
  .call 0 (.functionLiteral 1 [.identifier 2 "x"] (.block 3 [.expressionStatement 4
    (.identifier 5 "x")])) [.integer 6 5]

/-- The events of the call and of the body that it enters. -/
theorem Machine.wellNested_eval_identityCall :
    let heap := (Heap.empty.newScope none).2
    let after := ((Machine.new heap 9 true).eval identityCall 0).2
    0 < heap.scopes.size ∧ WellNested after.heap identityCall 0 after.events ∧
      after.events[0]? = some (.entry 0 identityCall 0) ∧ openNodes after.events = [] := by
  have hs : 0 < (Heap.empty.newScope none).2.scopes.size := by decide
  have hvalue : ((Machine.new (Heap.empty.newScope none).2 9 true).eval identityCall 0).1 =
      .ok (some (.integer (.made 1) 5)) := by cbv
  obtain ⟨hwell, hfirst, hend⟩ :=
    Machine.wellNested_eval (Heap.empty.newScope none).2 9 identityCall 0 hs
  exact ⟨hs, hwell, hfirst (by decide), (hend _ hvalue).1⟩

end TraceTree

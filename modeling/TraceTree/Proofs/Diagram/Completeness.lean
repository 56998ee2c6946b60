import TraceTree.Proofs.Diagram.Drawing
import TraceTree.Proofs.Diagram.Writing

set_option autoImplicit false

/-! # No event is lost

The tree of a recorded evaluation shows every event of it: the drawing reaches every node that was
evaluated, since these can be found from the root, and an occurrence of a node has all marks of that
node. A trace that was given up or cut off is no different, being the beginning of a trace.

Nodes and values have to be told apart by their identities, since an event of one would be taken for
an event of another otherwise. -/

namespace TraceTree

open Diagram

namespace Scene

variable {s : Scene} {m : Markup} {e : Event}

/-- The tree has the lines of the node of an event, with the mark of the event: that of an entry is
left of the kind of the node, and that of an exit is right of it, and an exit has an edge with its
step, one deeper. -/
def Shows (s : Scene) (m : Markup) (e : Event) : Prop :=
  ∃ above below depth parts,
    s.evaluationTree m = m.tree ("\n".intercalate (above ++
      (node e.node (s.entriesOf e.node) (s.exitVisits e.node) parts).lines m depth ++ below)) ∧
    (e.isEntry = true → Text.OccursIn (m.entry e.step (s.trace.scopeNumber e.scope))
      (leftMarks m (s.entriesOf e.node))) ∧
    (e.isEntry = false → Text.OccursIn (m.exit e.step (s.trace.scopeNumber e.scope))
      (rightMarks m (s.exitVisits e.node)) ∧
      (∃ drawing, .result e.step drawing ∈ parts) ∧
      indent (depth + 1) ++ m.edge ("Val " ++ toString e.step) ∈ linesAll m (depth + 1) parts)

/-! ## Marks of events -/

theorem entry_occursIn_leftMarks (he : e ∈ s.trace.events.toList) (hentry : e.isEntry = true) :
    Text.OccursIn (m.entry e.step (s.trace.scopeNumber e.scope))
      (leftMarks m (s.entriesOf e.node)) := by
  have hmem : e ∈ s.trace.events.toList.filter (fun e' => e'.isEntry && e'.node.is e.node) :=
    List.mem_filter.mpr ⟨he, by simp [hentry, Node.is]⟩
  rw [leftMarks, entriesOf, List.map_map]
  exact .join (List.mem_map.mpr ⟨e, hmem, rfl⟩)

theorem exit_occursIn_rightMarks (he : e ∈ s.exitsOf e.node) :
    Text.OccursIn (m.exit e.step (s.trace.scopeNumber e.scope))
      (rightMarks m (s.exitVisits e.node)) := by
  rw [rightMarks, exitVisits, List.map_map]
  exact .join (List.mem_map.mpr ⟨e, he, rfl⟩)

/-- What shows an event tells its step. -/
theorem Shows.step_occursIn (h : s.Shows m e) :
    Text.OccursIn (toString e.step) (s.evaluationTree m) := by
  obtain ⟨above, below, depth, parts, htree, hentry, hexit⟩ := h
  have hlabel : Text.OccursIn (toString e.step) (leftMarks m (s.entriesOf e.node) ++
      m.text e.node.typeName ++ rightMarks m (s.exitVisits e.node)) := by
    cases hkind : e.isEntry with
    | true =>
      have hleft := (m.step_occursIn_entry e.step _).trans (hentry hkind)
      exact (hleft.append_right _).append_right _
    | false => exact ((m.step_occursIn_exit e.step _).trans (hexit hkind).1).append_left _
  rw [htree]
  refine Text.OccursIn.trans ?_ (m.occursIn_tree _)
  refine Text.OccursIn.trans ((hlabel.append_left "[.\x7b").append_right "\x7d" |>.append_left
    (indent depth)) (.intercalate "\n" ?_)
  refine List.mem_append_left _ (List.mem_append_right _ ?_)
  rw [lines_node]
  exact List.mem_cons_self

/-! ## Shown events -/

/-- An event whose node occurs in the diagram is shown. -/
theorem shows_of_occurs {d : Diagram} (hdiagram : s.diagram? = some d)
    (he : e ∈ s.trace.events.toList) (h : s.Occurs [d] e.node) : s.Shows m e := by
  obtain ⟨d', hd, parts, hcontains, hresults⟩ := h
  obtain rfl := List.mem_singleton.mp hd
  obtain ⟨depth, above, below, hlines⟩ := hcontains.lines_infix (m := m) 0
  refine ⟨above, below, depth, parts, ?_, entry_occursIn_leftMarks he, ?_⟩
  · rw [evaluationTree, hdiagram, hlines]
    rfl
  · intro hkind
    have hexit : e ∈ s.exitsOf e.node := List.mem_filter.mpr ⟨he, by simp [hkind, Node.is]⟩
    obtain ⟨drawing, hmem⟩ := hresults e hexit
    refine ⟨exit_occursIn_rightMarks hexit, ⟨drawing, hmem⟩, ?_⟩
    exact (lines_infix_linesAll hmem (depth + 1)).subset (edge_mem_lines m _ _ _)

/-- Values that keep to their identities make a scene faithful. -/
theorem faithful_of_registered {arena : NodeId → Option Node} {made : List Value}
    (h : ∀ e ∈ s.trace.events.toList, ∀ v, e.value? = some v → v.Registered arena made) :
    s.Faithful := by
  have hlayer : ∀ u, s.Holds u → u.id.value? made = some u := by
    rintro u ⟨e, he, v, hv, hmem⟩
    exact (h e he v hv).layer u hmem
  have hbody : ∀ id closure, s.Holds (.function id closure) →
      arena closure.body.id = some closure.body := by
    rintro id closure ⟨e, he, v, hv, hmem⟩
    exact (h e he v hv).body _ hmem id closure rfl _ .self
  refine ⟨?_, ?_⟩
  · intro u v hu hv hid
    exact Option.some.inj ((hlayer u hu).symm.trans (by rw [hid, hlayer v hv]))
  · intro id closure id' closure' hf hf' hid
    exact Option.some.inj ((hbody id closure hf).symm.trans (by rw [hid, hbody id' closure' hf']))

end Scene

namespace Trace

/-- Where there is any event, the root was entered. -/
theorem root?_of_wellNested {t : Trace} {h : Heap} {root : Node} {scope : ScopeId}
    (hn : WellNested h root scope t.events.toList) (hne : t.events.toList ≠ []) :
    t.root? = some root := by
  obtain ⟨first, more, hevents⟩ := List.exists_cons_of_ne_nil hne
  have hfirst : t.events.toList[0]? = some first := by rw [hevents]; rfl
  obtain rfl := hn.first first hfirst
  rw [Array.getElem?_toList] at hfirst
  rw [root?, entryAt?, hfirst]
  rfl

/-- The events of the beginning of a trace are the first ones. -/
theorem toList_events_upTo (t : Trace) (step : Nat) :
    (t.upTo step).events.toList = t.events.toList.take (min (step + 1) t.steps) := by
  show (t.events.take (min (step + 1) t.steps)).toList = _
  rw [Array.take_eq_extract, Array.toList_extract, List.extract_eq_take_drop, Nat.sub_zero,
    List.drop_zero]

/-- A trace that is cut off is a beginning of the whole one, and so is the whole one itself. -/
theorem exists_toList_events_take {whole t : Trace}
    (h : t = whole ∨ ∃ step, t = whole.upTo step) :
    ∃ k, t.events.toList = whole.events.toList.take k := by
  rcases h with rfl | ⟨step, rfl⟩
  · exact ⟨_, List.take_length.symm⟩
  · exact ⟨_, toList_events_upTo whole step⟩

end Trace

namespace Scene

variable {s : Scene} {m : Markup} {e : Event}

/-- **The tree of a well-nested trace shows all its events.** -/
theorem shows (hs : s.Faithful) {h : Heap} {root : Node} {scope : ScopeId}
    (hn : WellNested h root scope s.trace.events.toList) (he : e ∈ s.trace.events.toList) :
    s.Shows m e := by
  have hroot : s.trace.root? = some root := Trace.root?_of_wellNested hn (List.ne_nil_of_mem he)
  refine shows_of_occurs (d := (drawNode s s.bodies root []).1) ?_ he ?_
  · rw [diagram?, hroot]
    rfl
  · exact occurs_of_found hs (hn.found e he)

/-- The event of each step is shown, and so its step stands in the text. -/
theorem shows_at (hs : s.Faithful) {h : Heap} {root : Node} {scope : ScopeId}
    (hn : WellNested h root scope s.trace.events.toList) {i : Nat}
    (he : s.trace.events[i]? = some e) :
    e.step = i ∧ s.Shows m e ∧ Text.OccursIn (toString i) (s.evaluationTree m) := by
  rw [← Array.getElem?_toList] at he
  have hstep := hn.step_eq i e he
  have hshows := s.shows (m := m) hs hn (List.mem_of_getElem? he)
  refine ⟨hstep, hshows, ?_⟩
  rw [← hstep]
  exact hshows.step_occursIn

end Scene

/-! ## Evaluations -/

namespace Machine

variable {heap : Heap} {limit : Nat} {root : Node} {scope : ScopeId} {trace : Trace}

/-- The trace of an evaluation is well-nested, also up to a step. -/
theorem exists_wellNested (hs : scope < heap.scopes.size)
    (htrace : trace = ((new heap limit true).eval root scope).2.trace ∨
      ∃ step, trace = ((new heap limit true).eval root scope).2.trace.upTo step) :
    ∃ h, WellNested h root scope trace.events.toList := by
  obtain ⟨c, hrec, _, hevents, _⟩ := eval_recorded heap limit root hs
  obtain ⟨k, hk⟩ := Trace.exists_toList_events_take htrace
  have hnested := hrec.wellNested.take k
  rw [← hevents, Machine.events, ← hk] at hnested
  exact ⟨_, hnested⟩

/-- Where nodes and values are told apart by their identities, an evaluation makes a faithful scene,
whatever the scopes bind by then. -/
theorem faithful_eval (hs : scope < heap.scopes.size) {arena : NodeId → Option Node}
    {made : List Value} (hheap : heap.Registered arena made) (hroot : root.Known arena)
    (htrace : trace = ((new heap limit true).eval root scope).2.trace ∨
      ∃ step, trace = ((new heap limit true).eval root scope).2.trace.upTo step)
    (later : Heap) (verbosity : Verbosity) : (⟨later, trace, verbosity⟩ : Scene).Faithful := by
  obtain ⟨c, hrec, _, hevents, _⟩ := eval_recorded heap limit root hs
  have hstart : (new heap limit true).heap.Registered arena made := hheap
  obtain ⟨made', hidentified⟩ := hrec.identified hstart hroot
  obtain ⟨k, hk⟩ := Trace.exists_toList_events_take htrace
  have hvalues : ∀ e ∈ trace.events.toList, ∀ v, e.value? = some v →
      v.Registered arena made' := by
    intro e he
    refine hidentified.events e ?_
    rw [← hevents]
    exact List.mem_of_mem_take (hk ▸ he)
  exact Scene.faithful_of_registered hvalues

end Machine

/-- **No event of an evaluation is lost by its tree.** Take any tree and any scopes whose nodes and
values are told apart by their identities, and evaluate the tree with any limit. Then every event of
the trace, or of the trace up to a step, is shown by the tree that is drawn of it, whatever the
scopes bind by then, the verbosity and the markup, and so its step stands in the text. -/
theorem Machine.shows_eval (heap : Heap) (limit : Nat) (root : Node) (scope : ScopeId)
    (hs : scope < heap.scopes.size) {arena : NodeId → Option Node} {made : List Value}
    (hheap : heap.Registered arena made) (hroot : root.Known arena) :
    let whole := ((Machine.new heap limit true).eval root scope).2.trace
    ∀ trace, trace = whole ∨ (∃ step, trace = whole.upTo step) →
      ∀ (later : Heap) (verbosity : Verbosity) (m : Markup) (i : Nat) (e : Event),
        trace.events[i]? = some e →
        e.step = i ∧ (⟨later, trace, verbosity⟩ : Scene).Shows m e ∧
          Text.OccursIn (toString i) ((⟨later, trace, verbosity⟩ : Scene).evaluationTree m) := by
  intro whole trace htrace later verbosity m i e he
  obtain ⟨h, hnested⟩ := Machine.exists_wellNested hs htrace
  exact Scene.shows_at (Machine.faithful_eval hs hheap hroot htrace later verbosity) hnested he

/-! ### A call of a function from an earlier evaluation -/

/-- The function `fn(x) { x }`, made of the nodes 2 to 5. -/
def earlierFunction : Value :=
  .function (.made 0) ⟨[.identifier 2 "x"],
    .block 3 [.expressionStatement 4 (.identifier 5 "x")], 0⟩

/-- A scope that binds the function. -/
def earlierHeap : Heap := ⟨#[⟨[("f", earlierFunction)], none⟩], 1, 1⟩

/-- The call `f(5)`, made of the nodes 6 to 8. -/
def laterCall : Node := .call 6 (.identifier 7 "f") [.integer 8 5]

/-- The nodes that are evaluated. -/
def laterNodes : List Node :=
  [laterCall, .identifier 7 "f", .integer 8 5,
    .block 3 [.expressionStatement 4 (.identifier 5 "x")],
    .expressionStatement 4 (.identifier 5 "x"), .identifier 5 "x"]

/-- The nodes by their numbers. -/
def laterArena (id : NodeId) : Option Node := laterNodes.find? (·.id == id)

/-- The trace of the call. -/
def laterTrace : Trace := ((Machine.new earlierHeap 9 true).eval laterCall 0).2.trace

/-- The body of the function is entered at step 5, and shown in the tree of the call. -/
theorem Machine.shows_eval_laterCall :
    0 < earlierHeap.scopes.size ∧ earlierHeap.Registered laterArena [earlierFunction] ∧
      laterCall.Known laterArena ∧
      ∃ e, laterTrace.events[5]? = some e ∧ e.node.id = 3 ∧
        (⟨earlierHeap, laterTrace, ⟨2⟩⟩ : Scene).Shows .plain e := by
  have hknown : ∀ n ∈ laterNodes, n.Known laterArena := by
    refine fun n hn => Node.known_of_mem ?_ hn
    simp [laterArena, laterNodes, laterCall, Node.id, Node.children]
  have hfunction : earlierFunction.Registered laterArena [earlierFunction] := by
    refine ⟨fun u hu => ?_, fun u hu id closure hu' => ?_⟩
    · rw [List.mem_singleton.mp hu]
      rfl
    · rw [List.mem_singleton.mp hu] at hu'
      obtain ⟨_, rfl⟩ := Value.function.inj hu'
      exact hknown _ (by simp [laterNodes])
  have hheap : earlierHeap.Registered laterArena [earlierFunction] := by
    refine ⟨rfl, fun s name v hv => ?_⟩
    cases s with
    | zero =>
      change (if "f" = name then some earlierFunction else none) = some v at hv
      split at hv
      · rw [← Option.some.inj hv]
        exact hfunction
      · cases hv
    | succ s => cases hv
  have hs : 0 < earlierHeap.scopes.size := by decide
  have hroot : laterCall.Known laterArena := hknown _ List.mem_cons_self
  obtain ⟨e, hevent, hnode⟩ : ∃ e, laterTrace.events[5]? = some e ∧ e.node.id = 3 :=
    ⟨.entry 5 (.block 3 [.expressionStatement 4 (.identifier 5 "x")]) 1, by cbv, rfl⟩
  have hshows := Machine.shows_eval earlierHeap 9 laterCall 0 hs hheap hroot laterTrace (Or.inl rfl)
    earlierHeap ⟨2⟩ .plain 5 e hevent
  exact ⟨hs, hheap, hroot, e, hevent, hnode, hshows.2.1⟩

end TraceTree

import TraceTree.Proofs.Trace.Nesting

set_option autoImplicit false

/-! # Where the nodes of a trace come from

Every node of a trace can be found from the root: a node is a field of another one, or it is the
body of a function that the exit of another one left. Since a callee is left before the body is
entered, this holds for the beginning of a trace as well. -/

namespace TraceTree

/-- A node can be found from the root, in the fields of nodes and in the functions that were left at
their exits. -/
inductive Found (events : List Event) (root : Node) : Node → Prop where
  | root : Found events root root
  | field {n part : Node} (found : Found events root n) (mem : part ∈ n.children) :
      Found events root part
  | body {callee : Node} {step : Nat} {scope : ScopeId} {id : ValueId} {closure : Closure}
      (found : Found events root callee)
      (left : .exit step callee scope (some (.function id closure)) ∈ events) :
      Found events root closure.body

/-! ## Results are what exits left -/

/-- The results of open nodes are the values that the exits of their parts left, in order; `inner`
is the part of the innermost one that is still open. -/
def Filled (events : List Event) : Option Node → List OpenNode → Prop
  | _, [] => True
  | inner, o :: outer =>
    (∃ seen, o.parts = seen ++ inner.toList ∧
      List.Forall₂ (fun part value => ∃ step scope, Event.exit step part scope value ∈ events) seen
        o.results) ∧
      Filled events (some o.node) outer

section

variable {events later : List Event} {inner : Option Node} {nodes : List OpenNode}

theorem Filled.mono (hsub : events ⊆ later) (h : Filled events inner nodes) :
    Filled later inner nodes := by
  induction nodes generalizing inner with
  | nil => trivial
  | cons o outer ih =>
    obtain ⟨⟨seen, hparts, hresults⟩, hrest⟩ := h
    refine ⟨⟨seen, hparts, hresults.imp ?_⟩, ih hrest⟩
    rintro part value ⟨step, scope, hmem⟩
    exact ⟨step, scope, hsub hmem⟩

theorem Filled.enter (node : Node) (h : Filled events none nodes) :
    Filled events (some node) (notePart node nodes) := by
  cases nodes with
  | nil => trivial
  | cons o outer =>
    obtain ⟨⟨seen, hparts, hresults⟩, hrest⟩ := h
    refine ⟨⟨seen, ?_, hresults⟩, hrest⟩
    show o.parts ++ [node] = seen ++ [node]
    rw [hparts, Option.toList_none, List.append_nil]

theorem Filled.leave {node : Node} {step : Nat} {scope : ScopeId} {value : Option Value}
    (hmem : .exit step node scope value ∈ events) (h : Filled events (some node) nodes) :
    Filled events none (noteResult value nodes) := by
  cases nodes with
  | nil => trivial
  | cons o outer =>
    obtain ⟨⟨seen, hparts, hresults⟩, hrest⟩ := h
    refine ⟨⟨seen ++ [node], ?_, ?_⟩, hrest⟩
    · rw [Option.toList_none, List.append_nil]
      exact hparts
    · exact List.rel_append hresults (.cons ⟨step, scope, hmem⟩ .nil)

/-- An event opens its own node at most. -/
theorem Event.node_of_mem_track {e : Event} {o : OpenNode} (ho : o ∈ e.track nodes) :
    o.node = e.node ∨ ∃ o' ∈ nodes, o'.node = o.node := by
  cases e with
  | entry step node scope =>
    rcases List.mem_cons.mp ho with rfl | ho
    · exact Or.inl rfl
    · right
      cases nodes with
      | nil => exact absurd ho List.not_mem_nil
      | cons first outer =>
        rcases List.mem_cons.mp ho with rfl | ho
        · exact ⟨first, List.mem_cons_self, rfl⟩
        · exact ⟨o, List.mem_cons_of_mem _ ho, rfl⟩
  | exit step node scope value =>
    right
    rcases nodes with _ | ⟨left, _ | ⟨first, outer⟩⟩
    · exact absurd ho List.not_mem_nil
    · exact absurd ho List.not_mem_nil
    · rcases List.mem_cons.mp ho with rfl | ho
      · exact ⟨first, List.mem_cons_of_mem _ List.mem_cons_self, rfl⟩
      · exact ⟨o, List.mem_cons_of_mem _ (List.mem_cons_of_mem _ ho), rfl⟩

end

namespace WellNested

variable {h : Heap} {root : Node} {scope : ScopeId} {events : List Event}

/-- The beginning of a trace is well nested too. -/
theorem take (hn : WellNested h root scope events) (k : Nat) :
    WellNested h root scope (events.take k) := by
  have hget : ∀ {i : Nat} {e : Event}, (events.take k)[i]? = some e →
      events[i]? = some e ∧ (events.take k).take i = events.take i := by
    intro i e he
    have hi : i < (events.take k).length := (List.getElem?_eq_some_iff.mp he).1
    rw [List.length_take] at hi
    have hik : i < k := Nat.lt_of_lt_of_le hi (Nat.min_le_left _ _)
    rw [List.getElem?_take_of_lt hik] at he
    exact ⟨he, by rw [List.take_take, Nat.min_eq_left (Nat.le_of_lt hik)]⟩
  refine ⟨?_, ?_, ?_, ?_⟩
  · exact fun i e he => hn.step_eq i e (hget he).1
  · exact fun e he => hn.first e (hget he).1
  · intro i step node scope value he
    rw [(hget he).2]
    exact hn.exits i step node scope value (hget he).1
  · intro i step node scope hi he
    rw [(hget he).2]
    exact hn.entries i step node scope hi (hget he).1

theorem filled (hn : WellNested h root scope events) {k : Nat} (hk : k ≤ events.length) :
    Filled (events.take k) none (openNodes (events.take k)) := by
  induction k with
  | zero => trivial
  | succ k ih =>
    have hfilled := ih (Nat.le_of_succ_le hk)
    obtain ⟨e, he⟩ : ∃ e, events[k]? = some e := ⟨_, List.getElem?_eq_getElem hk⟩
    have hsub : events.take k ⊆ events.take k ++ [e] := List.subset_append_left _ _
    rw [List.take_add_one, he, Option.toList_some, openNodes_concat]
    cases e with
    | entry step node scope =>
      exact ⟨⟨[], rfl, .nil⟩, (hfilled.enter node).mono hsub⟩
    | exit step node scope value =>
      obtain ⟨o, outer, hopen, hnode, _⟩ := hn.exits k step node scope value he
      rw [hopen] at hfilled ⊢
      have hrest := hfilled.2.mono hsub
      rw [hnode] at hrest
      exact hrest.leave (List.mem_append_right _ List.mem_cons_self)

/-- The first result of an open node is what an exit of its first part left. -/
theorem exit_mem (hn : WellNested h root scope events) {k : Nat} (hk : k ≤ events.length)
    {o : OpenNode} {outer : List OpenNode} (hopen : openNodes (events.take k) = o :: outer)
    {part : Node} {parts : List Node} {value : Option Value} (hparts : o.parts = part :: parts)
    (hvalue : o.results.head? = some value) :
    ∃ step scope, .exit step part scope value ∈ events.take k := by
  have hfilled := hn.filled hk
  rw [hopen] at hfilled
  obtain ⟨⟨seen, hseen, hresults⟩, _⟩ := hfilled
  rw [Option.toList_none, List.append_nil, hparts] at hseen
  rw [← hseen] at hresults
  cases hres : o.results with
  | nil => rw [hres] at hvalue; cases hvalue
  | cons first more =>
    rw [hres] at hresults hvalue
    obtain rfl := Option.some.inj hvalue
    cases hresults with
    | cons hfirst _ => exact hfirst

/-- **Every node of a trace can be found from the root.** -/
theorem found (hn : WellNested h root scope events) : ∀ e ∈ events, Found events root e.node := by
  -- the open nodes go along, since a node is entered inside the innermost of them
  have hall : ∀ k ≤ events.length, (∀ o ∈ openNodes (events.take k), Found events root o.node) ∧
      ∀ e ∈ events.take k, Found events root e.node := by
    intro k hk
    induction k with
    | zero => exact ⟨fun o ho => absurd ho List.not_mem_nil, fun e he => absurd he List.not_mem_nil⟩
    | succ k ih =>
      obtain ⟨hopen, hevents⟩ := ih (Nat.le_of_succ_le hk)
      obtain ⟨e, he⟩ : ∃ e, events[k]? = some e := ⟨_, List.getElem?_eq_getElem hk⟩
      have hnode : Found events root e.node := by
        cases e with
        | entry step node scope' =>
          rcases Nat.eq_zero_or_pos k with rfl | hpos
          · obtain ⟨_, rfl, _⟩ := Event.entry.inj (hn.first _ he)
            exact .root
          · obtain ⟨o, outer, hnodes, hfield | hbody⟩ := hn.entries k step node scope' hpos he
            · obtain ⟨_, walk, _, hsub, hprefix⟩ := hfield
              have hmem : node ∈ walk :=
                hprefix.subset (List.mem_append_right _ List.mem_cons_self)
              exact (hopen o (by rw [hnodes]; exact List.mem_cons_self)).field (hsub.subset hmem)
            · -- a body is entered only after an exit of the callee left the function
              obtain ⟨id, callee, arguments, valueId, closure, hcall, hparts, _, hvalue, rfl, _⟩ :=
                hbody
              obtain ⟨step', scope'', hmem⟩ :=
                hn.exit_mem (Nat.le_of_succ_le hk) hnodes hparts hvalue
              exact .body (hevents _ hmem) (List.mem_of_mem_take hmem)
        | exit step node scope' value =>
          obtain ⟨o, outer, hnodes, rfl, _⟩ := hn.exits k step node scope' value he
          exact hopen o (by rw [hnodes]; exact List.mem_cons_self)
      rw [List.take_add_one, he, Option.toList_some, openNodes_concat]
      refine ⟨?_, ?_⟩
      · intro o ho
        rcases Event.node_of_mem_track ho with hnew | ⟨o', ho', hsame⟩
        · rw [hnew]
          exact hnode
        · rw [← hsame]
          exact hopen o' ho'
      · intro e' he'
        rcases List.mem_append.mp he' with he' | he'
        · exact hevents e' he'
        · rw [List.mem_singleton.mp he']
          exact hnode
  intro e he
  have hwhole := (hall events.length (Nat.le_refl _)).2 e
  rw [List.take_length] at hwhole
  exact hwhole he

end WellNested

end TraceTree

import Mathlib
import TraceTree.Proofs.Eval.Wrapper
import TraceTree.Proofs.Trace.Linking
import TraceTree.Workspace

set_option autoImplicit false

/-! # Where a `return` leads

The statements of a program and the body of a function that is called are an activation, and a
`return` is meant to end it. `EndsActivation` says that it does: once the statement is left with a
wrapper, nothing more is entered while the activation is open. This fails if a node on the way out
takes the wrapper for an operand (`TakenAt`) and then goes on, and in no other case. -/

namespace TraceTree

/-! ## Activations -/

/-- Whether a node is a program. -/
def Node.isProgram : Node → Bool
  | program _ _ => true
  | _ => false

/-- The step at which the activation of the innermost open node was entered: that of the innermost
one which is a program or, as the body of a function is, evaluated in another scope than the node
around it. -/
def activation : List OpenNode → Option Nat
  | [] => none
  | [o] => some o.opened
  | o :: around :: outer =>
    if o.node.isProgram || around.scope != o.scope then some o.opened
    else activation (around :: outer)

/-- The steps at which the open nodes were entered. -/
def openSteps (events : List Event) : List Nat := (openNodes events).map (·.opened)

/-- The activation that the event at `i` belongs to is still open before the event at `j`. -/
def StillActive (events : List Event) (i j : Nat) : Prop :=
  ∃ s, activation (openNodes (events.take i)) = some s ∧ s ∈ openSteps (events.take j)

/-- A `return` statement is left with a wrapper. -/
def ReturnsAt (events : List Event) (i : Nat) (w : Value) : Prop :=
  w.isWrapper = true ∧
    ∃ id operand scope, events[i]? = some (.exit i (.returnStatement id operand) scope (some w))

/-- Nothing more is entered in the activation of the event at `i`. -/
def EndsActivation (events : List Event) (i : Nat) : Prop :=
  ∀ j e, i < j → events[j]? = some e → StillActive events i j → e.isEntry = false

/-- From `i` to `k` one node after the other is left with the same value. -/
def CarriedTo (events : List Event) (i k : Nat) (w : Value) : Prop :=
  ∀ j, i ≤ j → j ≤ k → ∃ node scope, events[j]? = some (.exit j node scope (some w))

/-- After the event at `k` a node of the same activation has got the wrapper for an operand. -/
structure TakenAt (events : List Event) (i k : Nat) (w : Value) : Prop where
  le : i ≤ k
  carried : CarriedTo events i k w
  active : StillActive events i (k + 1)
  taken : ∃ o outer, openNodes (events.take (k + 1)) = o :: outer ∧
    o.node.takesOperand (o.results.length - 1) = true

/-- The wrapper is carried out of its activation: all that is left on the way is left with the
wrapper, except that a program unwraps it. -/
def CarriedOut (events : List Event) (i : Nat) (w : Value) : Prop :=
  ∀ j e, i < j → events[j]? = some e → StillActive events i j →
    ∃ node scope, e = .exit j node scope (some (node.handOn w))

theorem Node.handOn_of_isProgram {n : Node} {w : Value} (h : n.isProgram = false) :
    n.handOn w = w := by
  cases n <;> first | rfl | cases h

theorem Node.handOn_of_takesOperand {n : Node} {w : Value} {position : Nat}
    (h : n.takesOperand position = true) : n.handOn w = w := by
  cases n <;> first | rfl | cases h

/-! ## Open steps -/

theorem activation_of_isProgram {o : OpenNode} {outer : List OpenNode}
    (h : o.node.isProgram = true) : activation (o :: outer) = some o.opened := by
  cases outer with
  | nil => rfl
  | cons around outer => rw [activation, h, Bool.true_or, if_pos rfl]

theorem activation_noteResult (value : Option Value) (nodes : List OpenNode) :
    activation (noteResult value nodes) = activation nodes := by
  cases nodes with
  | nil => rfl
  | cons o outer => cases outer <;> rfl

theorem openSteps_entry (events : List Event) (step : Nat) (node : Node) (scope : ScopeId) :
    openSteps (events ++ [.entry step node scope]) = step :: openSteps events := by
  unfold openSteps
  rw [openNodes_concat, Event.track, List.map_cons]
  cases openNodes events <;> rfl

theorem openSteps_exit (events : List Event) (step : Nat) (node : Node) (scope : ScopeId)
    (value : Option Value) :
    openSteps (events ++ [.exit step node scope value]) = (openSteps events).tail := by
  unfold openSteps
  rw [openNodes_concat, Event.track, ← List.map_tail]
  cases (openNodes events).tail <;> rfl

section

variable {events : List Event} (hsteps : ∀ i (e : Event), events[i]? = some e → e.step = i)

include hsteps

/-- The open nodes were entered one after the other, the outermost first. -/
theorem openSteps_sorted {k : Nat} (hk : k ≤ events.length) :
    (openSteps (events.take k)).Pairwise (· > ·) ∧ ∀ s ∈ openSteps (events.take k), s < k := by
  induction k with
  | zero => simp [openSteps]
  | succ k ih =>
    obtain ⟨hsorted, hlt⟩ := ih (Nat.le_of_succ_le hk)
    obtain ⟨e, he⟩ : ∃ e, events[k]? = some e := ⟨_, List.getElem?_eq_getElem hk⟩
    rw [List.take_add_one, he, Option.toList_some]
    cases e with
    | entry step node scope =>
      obtain rfl : step = k := hsteps k _ he
      rw [openSteps_entry]
      refine ⟨List.pairwise_cons.mpr ⟨hlt, hsorted⟩, ?_⟩
      intro s hs
      rcases List.mem_cons.mp hs with rfl | hs
      · exact Nat.lt_succ_self s
      · exact Nat.lt_succ_of_lt (hlt s hs)
    | exit step node scope value =>
      rw [openSteps_exit]
      exact ⟨hsorted.sublist (List.tail_sublist _),
        fun s hs => Nat.lt_succ_of_lt (hlt s (List.mem_of_mem_tail hs))⟩

/-- What is open was open ever since it was entered. -/
theorem mem_openSteps_of_le {s j k : Nat} (hkj : k ≤ j) (hj : j ≤ events.length) (hsk : s < k)
    (hs : s ∈ openSteps (events.take j)) : s ∈ openSteps (events.take k) := by
  induction j, hkj using Nat.le_induction with
  | base => exact hs
  | succ j hkj ih =>
    refine ih (Nat.le_of_succ_le hj) ?_
    obtain ⟨e, he⟩ : ∃ e, events[j]? = some e := ⟨_, List.getElem?_eq_getElem hj⟩
    rw [List.take_add_one, he, Option.toList_some] at hs
    cases e with
    | entry step node scope =>
      obtain rfl : step = j := hsteps j _ he
      rw [openSteps_entry] at hs
      rcases List.mem_cons.mp hs with rfl | hs
      · exact absurd hsk (Nat.not_lt.mpr hkj)
      · exact hs
    | exit step node scope value =>
      rw [openSteps_exit] at hs
      exact List.mem_of_mem_tail hs

end

theorem activation_mem {nodes : List OpenNode} {s : Nat} (h : activation nodes = some s) :
    s ∈ nodes.map (·.opened) := by
  induction nodes with
  | nil => cases h
  | cons o outer ih =>
    cases outer with
    | nil =>
      obtain rfl := Option.some.inj h
      exact List.mem_cons_self
    | cons around outer =>
      rw [activation] at h
      split at h
      · obtain rfl := Option.some.inj h
        exact List.mem_cons_self
      · exact List.mem_cons_of_mem _ (ih h)

/-! ## The way of a wrapper -/

/-- The innermost open node, of the activation entered at `s`, was handed a value by the field
that was left last. -/
def HandedTo (null : Value) (events : List Event) (s : Nat) (w : Value) : Prop :=
  ∃ o outer done part, openNodes events = o :: outer ∧ activation (openNodes events) = some s ∧
    o.results = done ++ [some w] ∧ o.node.move null done = .visit part

namespace Config

variable {c c₁ c₂ : Config} {m : Machine} {root : Node} {rootScope : ScopeId} {w : Value}

/-- Leaving a node closes its activation or hands the value to the next node of the activation. -/
theorem Recorded.handedTo (h : c₁.Recorded m root rootScope) (hstep : c₁.Step c₂) {s step : Nat}
    {node : Node} {scope : ScopeId}
    (hlast : c₂.machine.events = c₁.machine.events ++ [.exit step node scope (some w)])
    (hsorted : (openSteps c₁.machine.events).Pairwise (· > ·))
    (hs : activation (openNodes c₁.machine.events) = some s) :
    s ∉ openSteps c₂.machine.events ∨ HandedTo m.null c₂.machine.events s w := by
  obtain ⟨f, rest, ending, _, hframes, hmove, _, _, hvalue⟩ := hstep.of_exit h.tracing_eq hlast
  obtain ⟨o, outer, hopen, hmatch, htracks⟩ := h.nested.openNodes_eq hframes
  have hlinked := h.linked.frames
  rw [hframes, h.null_eq] at hlinked
  rw [hlast, openSteps_exit]
  unfold openSteps HandedTo
  unfold openSteps at hsorted
  rw [openNodes_concat, Event.track, hopen, List.tail_cons]
  rw [hopen] at hs hsorted
  cases htracks with
  | nil => exact Or.inl List.not_mem_nil
  | @cons _ g around rest outer hmatch' _ _ =>
    rw [activation] at hs
    split at hs
    · next hstarts =>
      -- the node that was left is where the activation starts
      obtain rfl := Option.some.inj hs
      left
      intro hmem
      exact absurd ((List.pairwise_cons.mp hsorted).1 _ hmem) (Nat.lt_irrefl _)
    · next hinside =>
      simp only [Bool.or_eq_true, bne_iff_ne, not_or, ne_eq, not_not] at hinside
      have hscope : f.scope = g.scope := by rw [← hmatch.scope, ← hmatch'.scope, hinside.2]
      rcases (List.isChain_cons_cons.mp hlinked).1 with ⟨hvisit, _⟩ | ⟨_, _, _, _, hne⟩
      · right
        refine ⟨_, outer, g.done, f.node, rfl, ?_, ?_, ?_⟩
        · rw [activation_noteResult]
          exact hs
        · rw [hmatch'.results]
        · rw [hmatch'.node]
          exact hvisit
      · exact absurd hscope.symm hne

/-- What a node does that was handed a wrapper: it takes the wrapper for an operand, and is not left
with it then, or it is left at once with what it hands on. -/
theorem Recorded.after_handedTo (h : c₁.Recorded m root rootScope) (hstep : c₁.Step c₂) {s : Nat}
    {e : Event} (hw : w.isWrapper = true)
    (hlast : c₂.machine.events = c₁.machine.events ++ [e])
    (hhanded : HandedTo m.null c₁.machine.events s w) :
    ∃ o outer, openNodes c₁.machine.events = o :: outer ∧
      ((o.node.takesOperand (o.results.length - 1) = true ∧
          ∀ step node scope, e ≠ .exit step node scope (some w)) ∨
        (o.node.takesOperand (o.results.length - 1) = false ∧
          e = .exit e.step o.node o.scope (some (o.node.handOn w)))) := by
  obtain ⟨o, outer, done, part, hopen, _, hresults, hvisit⟩ := hhanded
  refine ⟨o, outer, hopen, ?_⟩
  have hlen : o.results.length - 1 = done.length := by rw [hresults]; simp
  rw [hlen]
  -- the innermost frame is the open node
  have hframe : ∀ f rest, c₁.frames = f :: rest →
      f.node = o.node ∧ f.scope = o.scope ∧ f.done = done ++ [some w] := by
    intro f rest hframes
    obtain ⟨o', outer', hopen', hmatch, _⟩ := h.nested.openNodes_eq hframes
    rw [hopen] at hopen'
    obtain ⟨rfl, rfl⟩ := List.cons.inj hopen'
    exact ⟨hmatch.node.symm, hmatch.scope.symm, by rw [← hmatch.results, hresults]⟩
  cases htakes : o.node.takesOperand done.length with
  | true =>
    left
    refine ⟨rfl, ?_⟩
    rintro step node scope rfl
    obtain ⟨f, rest, ending, _, hframes, hmove, _, _, hvalue⟩ := hstep.of_exit h.tracing_eq hlast
    obtain ⟨hnode, _, hdone⟩ := hframe f rest hframes
    rw [hnode, hdone, h.null_eq] at hmove
    exact Node.apply_ne_wrapper hw hvisit htakes hmove _ _ hvalue
  | false =>
    right
    refine ⟨rfl, ?_⟩
    have hnext := Node.move_concat_wrapper hw hvisit htakes
    cases e with
    | entry step node scope =>
      -- a node that hands on asks for no other
      obtain ⟨hcontrol, _⟩ := hstep.of_entry h.tracing_eq hlast
      cases hframes : c₁.frames with
      | nil =>
        have htracks := h.nested.tracks
        rw [hframes, hopen] at htracks
        cases htracks
      | cons g rest =>
        obtain ⟨hnode, _, hdone⟩ := hframe g rest hframes
        have hasks := h.linked.asked node scope g rest hcontrol hframes
        unfold Frame.Asks at hasks
        rw [hnode, hdone, h.null_eq, hnext] at hasks
        rcases hasks with ⟨habs, _⟩ | ⟨_, _, habs, _⟩ <;> cases habs
    | exit step node scope value =>
      obtain ⟨f, rest, ending, _, hframes, hmove, rfl, rfl, rfl⟩ :=
        hstep.of_exit h.tracing_eq hlast
      obtain ⟨hnode, hscope, hdone⟩ := hframe f rest hframes
      rw [hnode, hdone, h.null_eq, hnext] at hmove
      obtain rfl := Move.finish.inj hmove
      rw [hnode, hscope]
      rfl

/-! ## Returns of a recorded run -/

/-- A program that hands a wrapper on is where the activation starts, and is closed. -/
theorem Recorded.not_mem_of_isProgram (h : c.Recorded m root rootScope) {k s : Nat} {o : OpenNode}
    {outer : List OpenNode} {value : Option Value} {scope : ScopeId}
    (hnodes : openNodes (c.machine.events.take (k + 1)) = o :: outer)
    (hactivation : activation (openNodes (c.machine.events.take (k + 1))) = some s)
    (hprogram : o.node.isProgram = true)
    (he : c.machine.events[k + 1]? = some (.exit (k + 1) o.node scope value)) :
    s ∉ openSteps (c.machine.events.take (k + 1 + 1)) := by
  have hk := (List.getElem?_eq_some_iff.mp he).1
  have hsorted := (openSteps_sorted (fun _ _ he => h.step_eq he) (Nat.le_of_lt hk)).1
  rw [hnodes, activation_of_isProgram hprogram] at hactivation
  obtain rfl := Option.some.inj hactivation
  rw [List.take_add_one, he, Option.toList_some, openSteps_exit]
  unfold openSteps at hsorted ⊢
  rw [hnodes] at hsorted ⊢
  intro hmem
  exact absurd ((List.pairwise_cons.mp hsorted).1 _ hmem) (Nat.lt_irrefl _)

section Returns

variable {i s : Nat} (h : c.Recorded m root rootScope) (hreturn : ReturnsAt c.machine.events i w)
  (hs : activation (openNodes (c.machine.events.take i)) = some s)

include h hreturn hs

theorem Recorded.lt_of_activation : s < i := by
  obtain ⟨_, id, operand, scope, he⟩ := hreturn
  have hi := (List.getElem?_eq_some_iff.mp he).1
  exact (openSteps_sorted (fun _ _ he => h.step_eq he) (Nat.le_of_lt hi)).2 s (activation_mem hs)

/-- As long as the activation is open and the wrapper is carried on, there is a node that was
handed it. -/
theorem Recorded.handedTo_of_carriedTo {k : Nat} (hik : i ≤ k)
    (hcarried : CarriedTo c.machine.events i k w)
    (hopen : s ∈ openSteps (c.machine.events.take (k + 1))) :
    HandedTo m.null (c.machine.events.take (k + 1)) s w := by
  have hsteps : ∀ i (e : Event), c.machine.events[i]? = some e → e.step = i :=
    fun _ _ he => h.step_eq he
  have hsi := h.lt_of_activation hreturn hs
  -- the step that leaves a node with the wrapper
  have hleave : ∀ k, i ≤ k → CarriedTo c.machine.events i k w →
      s ∈ openSteps (c.machine.events.take (k + 1)) →
      activation (openNodes (c.machine.events.take k)) = some s →
      HandedTo m.null (c.machine.events.take (k + 1)) s w := by
    intro k hik hcarried hopen hactivation
    obtain ⟨node, scope, he⟩ := hcarried k hik (Nat.le_refl k)
    obtain ⟨c₁, c₂, hrec, hstep, _, htake, htake', hlast⟩ := h.at_event he
    have hk := (List.getElem?_eq_some_iff.mp he).1
    have hsorted := (openSteps_sorted hsteps (Nat.le_of_lt hk)).1
    rw [← htake] at hsorted hactivation
    rw [← htake'] at hopen ⊢
    exact (hrec.handedTo hstep hlast hsorted hactivation).resolve_left fun hclosed => hclosed hopen
  induction k, hik using Nat.le_induction with
  | base => exact hleave i (Nat.le_refl i) hcarried hopen hs
  | succ k hik ih =>
    obtain ⟨node, scope, he⟩ := hcarried (k + 1) (Nat.le_succ_of_le hik) (Nat.le_refl _)
    have hk := (List.getElem?_eq_some_iff.mp he).1
    have hopen' : s ∈ openSteps (c.machine.events.take (k + 1)) :=
      mem_openSteps_of_le hsteps (Nat.le_succ (k + 1)) hk (by omega) hopen
    obtain ⟨_, _, _, _, _, hactivation, _⟩ :=
      ih (fun j hij hjk => hcarried j hij (Nat.le_succ_of_le hjk)) hopen'
    exact hleave (k + 1) (Nat.le_succ_of_le hik) hcarried hopen hactivation

/-- What comes next while the activation is open: the wrapper is taken for an operand, or handed
on. -/
theorem Recorded.taken_or_handedOn {k : Nat} {e : Event} (hik : i ≤ k)
    (hcarried : CarriedTo c.machine.events i k w)
    (hopen : s ∈ openSteps (c.machine.events.take (k + 1)))
    (he : c.machine.events[k + 1]? = some e) :
    TakenAt c.machine.events i k w ∨
      ∃ o outer, openNodes (c.machine.events.take (k + 1)) = o :: outer ∧
        e = .exit (k + 1) o.node o.scope (some (o.node.handOn w)) := by
  have hhanded := h.handedTo_of_carriedTo hreturn hs hik hcarried hopen
  obtain ⟨c₁, c₂, hrec, hstep, _, htake, _, hlast⟩ := h.at_event he
  rw [← htake] at hhanded
  obtain ⟨o, outer, hnodes, ⟨htakes, _⟩ | ⟨_, hexit⟩⟩ :=
    hrec.after_handedTo hstep hreturn.1 hlast hhanded
  · rw [htake] at hnodes
    exact Or.inl ⟨hik, hcarried, ⟨s, hs, hopen⟩, o, outer, hnodes, htakes⟩
  · rw [htake] at hnodes
    rw [h.step_eq he] at hexit
    exact Or.inr ⟨o, outer, hnodes, hexit⟩

/-- A wrapper is carried on as long as its activation is open, unless it is taken for an operand. -/
theorem Recorded.carriedTo_or_taken {k : Nat} (hik : i ≤ k) (hk : k < c.machine.events.length)
    (hopen : s ∈ openSteps (c.machine.events.take (k + 1))) :
    CarriedTo c.machine.events i k w ∨ ∃ k' < k, TakenAt c.machine.events i k' w := by
  have hsteps : ∀ i (e : Event), c.machine.events[i]? = some e → e.step = i :=
    fun _ _ he => h.step_eq he
  have hsi := h.lt_of_activation hreturn hs
  induction k, hik using Nat.le_induction with
  | base =>
    left
    intro j hij hji
    obtain rfl := Nat.le_antisymm hij hji
    obtain ⟨_, id, operand, scope, he⟩ := hreturn
    exact ⟨_, scope, he⟩
  | succ k hik ih =>
    have hopen' : s ∈ openSteps (c.machine.events.take (k + 1)) :=
      mem_openSteps_of_le hsteps (Nat.le_succ (k + 1)) hk (by omega) hopen
    rcases ih (Nat.lt_of_succ_lt hk) hopen' with hcarried | ⟨k', hk', htaken⟩
    · have he := List.getElem?_eq_getElem hk
      rcases h.taken_or_handedOn hreturn hs hik hcarried hopen' he with htaken |
        ⟨o, outer, hnodes, hexit⟩
      · exact Or.inr ⟨k, Nat.lt_succ_self k, htaken⟩
      · left
        intro j hij hjk
        rcases Nat.lt_or_eq_of_le hjk with hlt | rfl
        · exact hcarried j hij (Nat.le_of_lt_succ hlt)
        · rw [hexit] at he
          cases hprogram : o.node.isProgram with
          | true =>
            obtain ⟨_, _, _, _, _, hactivation, _⟩ :=
              h.handedTo_of_carriedTo hreturn hs hik hcarried hopen'
            exact absurd hopen (h.not_mem_of_isProgram hnodes hactivation hprogram he)
          | false =>
            rw [Node.handOn_of_isProgram hprogram] at he
            exact ⟨_, _, he⟩
    · exact Or.inr ⟨k', Nat.lt_succ_of_lt hk', htaken⟩

end Returns

end Config

/-! ## Recorded traces -/

/-- **When a `return` ends its activation.** Take any evaluation and any `return` statement that is
left with a wrapper. Nothing more is entered in its activation exactly if no node enters another
after it took the wrapper for an operand; and if the evaluation has a value, the wrapper is carried
out of the activation exactly if no node takes it for an operand. -/
theorem Machine.endsActivation_iff (heap : Heap) (limit : Nat) (root : Node) (scope : ScopeId)
    (hs : scope < heap.scopes.size) :
    let run := (Machine.new heap limit true).eval root scope
    let events := run.2.events
    ∀ i w, ReturnsAt events i w →
      (EndsActivation events i ↔
        ¬ ∃ k j step node scope, TakenAt events i k w ∧ k < j ∧
          events[j]? = some (.entry step node scope) ∧ StillActive events i j) ∧
      ((∃ value, run.1 = .ok value) →
        (CarriedOut events i w ↔ ¬ ∃ k, TakenAt events i k w)) := by
  intro run events i w hreturn
  obtain ⟨c, hrec, _, hevents, hok⟩ := Machine.eval_recorded heap limit root hs
  have heq : events = c.machine.events := hevents
  rw [heq] at hreturn ⊢
  -- an event of the activation hands the wrapper on, unless it was taken for an operand before
  have hhanded : ∀ j e, i < j → c.machine.events[j]? = some e → StillActive c.machine.events i j →
      (∃ node scope, e = .exit j node scope (some (node.handOn w))) ∨
        ∃ k < j, TakenAt c.machine.events i k w := by
    rintro (_ | k) e hij he ⟨s, hs, hopen⟩
    · exact absurd hij (Nat.not_lt_zero i)
    · have hik : i ≤ k := Nat.le_of_lt_succ hij
      have hk := Nat.lt_of_succ_lt (List.getElem?_eq_some_iff.mp he).1
      rcases hrec.carriedTo_or_taken hreturn hs hik hk hopen with hcarried | ⟨k', hk', htaken⟩
      · rcases hrec.taken_or_handedOn hreturn hs hik hcarried hopen he with htaken |
          ⟨o, outer, _, hexit⟩
        · exact Or.inr ⟨k, Nat.lt_succ_self k, htaken⟩
        · exact Or.inl ⟨o.node, o.scope, hexit⟩
      · exact Or.inr ⟨k', Nat.lt_succ_of_lt hk', htaken⟩
  refine ⟨⟨?_, ?_⟩, fun ⟨value, hvalue⟩ => ⟨?_, ?_⟩⟩
  · rintro hends ⟨k, j, step, node, scope, htaken, hkj, he, hactive⟩
    exact absurd (hends j _ (Nat.lt_of_le_of_lt htaken.le hkj) he hactive) (by simp [Event.isEntry])
  · intro hno j e hij he hactive
    rcases hhanded j e hij he hactive with ⟨node, scope, rfl⟩ | ⟨k, hkj, htaken⟩
    · rfl
    · cases e with
      | entry step node scope =>
        exact absurd ⟨k, j, step, node, scope, htaken, hkj, he, hactive⟩ hno
      | exit step node scope value => rfl
  · rintro hout ⟨k, htaken⟩
    obtain ⟨s, hs, hopen⟩ := htaken.active
    obtain ⟨o, outer, hnodes, htakes⟩ := htaken.taken
    -- the evaluation ends, so the node that took the wrapper is left
    have hlt : k + 1 < c.machine.events.length := by
      by_contra hge
      obtain ⟨hcontrol, hframes⟩ := hok value hvalue
      have htracks := hrec.nested.tracks
      rw [hframes] at htracks
      rw [List.take_of_length_le (Nat.le_of_not_lt hge)] at hnodes
      rw [hnodes] at htracks
      cases htracks
    have he := List.getElem?_eq_getElem hlt
    obtain ⟨node, scope, hexit⟩ :=
      hout (k + 1) _ (Nat.lt_succ_of_le htaken.le) he htaken.active
    rw [hexit] at he
    obtain ⟨o', outer', hnodes', hnode, _⟩ := hrec.wellNested.exits _ _ _ _ _ he
    rw [hnodes] at hnodes'
    obtain ⟨rfl, rfl⟩ := List.cons.inj hnodes'
    rw [← hnode, Node.handOn_of_takesOperand htakes] at he
    have hhandedTo := hrec.handedTo_of_carriedTo hreturn hs htaken.le htaken.carried hopen
    obtain ⟨c₁, c₂, hrec₁, hstep, _, htake, _, hlast⟩ := hrec.at_event he
    rw [← htake] at hhandedTo hnodes
    obtain ⟨o', outer', hnodes', ⟨_, hne⟩ | ⟨hnot, _⟩⟩ :=
      hrec₁.after_handedTo hstep hreturn.1 hlast hhandedTo
    · exact hne _ _ _ rfl
    · rw [hnodes] at hnodes'
      obtain ⟨rfl, rfl⟩ := List.cons.inj hnodes'
      rw [htakes] at hnot
      cases hnot
  · intro hno j e hij he hactive
    rcases hhanded j e hij he hactive with hexit | ⟨k, _, htaken⟩
    · exact hexit
    · exact absurd ⟨k, htaken⟩ hno

/-- The program `if (true) { return 1; } + 2`, whose `return` stands in an operand. -/
def lostReturn : Node :=
  .program 8 [.expressionStatement 7 (.infixExpression 6 .add
    (.ifExpression 4 (.boolean 0 true) (.block 3 [.returnStatement 2 (.integer 1 1)]) none)
    (.integer 5 2))]

/-- Its evaluation. -/
def lostReturnRun : Except Overflow (Option Value) × Machine :=
  (Machine.new Workspace.empty.heap 9 true).eval lostReturn Workspace.empty.globals

/-- The wrapper that its `return` makes. -/
def lostWrapper : Value := .returned (.made 1) (.integer (.made 0) 1)

/-- The program is still being evaluated once its `if` is left. -/
theorem stillActive_lostReturn : StillActive lostReturnRun.2.events 10 13 := by
  have hsteps : openSteps (lostReturnRun.2.events.take 13) = [2, 1, 0] := by cbv
  refine ⟨0, by cbv, ?_⟩
  rw [hsteps]
  decide

/-- The sum takes the wrapper for its left operand, so the wrapper is not carried out. -/
theorem Machine.takenAt_lostReturn :
    Workspace.empty.globals < Workspace.empty.heap.scopes.size ∧
      ReturnsAt lostReturnRun.2.events 10 lostWrapper ∧
      TakenAt lostReturnRun.2.events 10 12 lostWrapper ∧
      ¬ CarriedOut lostReturnRun.2.events 10 lostWrapper := by
  have hs : Workspace.empty.globals < Workspace.empty.heap.scopes.size := by decide
  have hreturn : ReturnsAt lostReturnRun.2.events 10 lostWrapper :=
    ⟨rfl, 2, .integer 1 1, 0, by cbv⟩
  have htaken : TakenAt lostReturnRun.2.events 10 12 lostWrapper := by
    refine ⟨by decide, ?_, stillActive_lostReturn, _, _, by cbv, by cbv⟩
    intro j hij hjk
    obtain rfl | rfl | rfl : j = 10 ∨ j = 11 ∨ j = 12 := by omega
    · exact ⟨.returnStatement 2 (.integer 1 1), 0, by cbv⟩
    · exact ⟨.block 3 [.returnStatement 2 (.integer 1 1)], 0, by cbv⟩
    · exact ⟨.ifExpression 4 (.boolean 0 true) (.block 3 [.returnStatement 2 (.integer 1 1)]) none,
        0, by cbv⟩
  have hvalue : lostReturnRun.1 =
      .ok (some (.error (.made 3) (.typeMismatch .returned .add .integer))) := by cbv
  have hiff := (Machine.endsActivation_iff _ 9 lostReturn _ hs 10 lostWrapper hreturn).2
    ⟨_, hvalue⟩
  exact ⟨hs, hreturn, htaken, fun hout => hiff.mp hout ⟨12, htaken⟩⟩

/-- A `return` does not end its activation wherever it stands: here the right operand is entered
after it. -/
theorem lostReturn_not_endsActivation :
    (Workspace.empty.parse "if (true) { return 1; } + 2" .program).map (·.root) =
        .ok lostReturn ∧
      (∃ value, lostReturnRun.1 = .ok value) ∧
      ReturnsAt lostReturnRun.2.events 10 lostWrapper ∧
      ¬ EndsActivation lostReturnRun.2.events 10 := by
  refine ⟨by cbv, ⟨some (.error (.made 3) (.typeMismatch .returned .add .integer)), by cbv⟩,
    ⟨rfl, 2, .integer 1 1, 0, by cbv⟩, ?_⟩
  intro hends
  have hentry : lostReturnRun.2.events[13]? = some (.entry 13 (.integer 5 2) 0) := by cbv
  exact absurd (hends 13 _ (by decide) hentry stillActive_lostReturn) (by decide)

end TraceTree

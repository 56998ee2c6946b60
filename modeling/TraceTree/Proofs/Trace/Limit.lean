import TraceTree.Proofs.Trace.Nesting

set_option autoImplicit false

/-! # The limit only cuts evaluations short

Nothing but the check before a node is entered looks at the limit. So a run is also one of an
evaluator with a greater limit, step by step, and since a configuration has one next step at most,
there is no other run. If the evaluation has a value it is the same under the greater limit; if it
was given up, the evaluator with the greater limit comes through the configuration where it was.

The depth of an evaluator that starts anew is the number of its frames, and these are the entries
that are open in its trace. -/

namespace TraceTree

/-! ## Traces grow -/

/-- A later state of a trace: nothing that was recorded is lost. -/
structure Trace.Extends (t t' : Trace) : Prop where
  events : t.events.toList <+: t'.events.toList
  scopes : t.scopes.toList <+: t'.scopes.toList
  firstSeen : t.firstSeen.toList <+: t'.firstSeen.toList

namespace Trace

variable {t t₁ t₂ : Trace}

theorem Extends.refl (t : Trace) : t.Extends t :=
  ⟨List.prefix_rfl, List.prefix_rfl, List.prefix_rfl⟩

theorem Extends.trans (h : t.Extends t₁) (h' : t₁.Extends t₂) : t.Extends t₂ :=
  ⟨h.events.trans h'.events, h.scopes.trans h'.scopes, h.firstSeen.trans h'.firstSeen⟩

theorem extends_observe (t : Trace) (scope : ScopeId) : t.Extends (t.observe scope) := by
  unfold observe
  split
  · exact .refl t
  · exact ⟨List.prefix_rfl, by simp, by simp⟩

theorem extends_enter (t : Trace) (node : Node) (scope : ScopeId) :
    t.Extends (t.enter node scope) :=
  (t.extends_observe scope).trans ⟨by simp [enter], List.prefix_rfl, List.prefix_rfl⟩

theorem extends_exit (t : Trace) (node : Node) (scope : ScopeId) (value : Option Value) :
    t.Extends (t.exit node scope value) :=
  (t.extends_observe scope).trans ⟨by simp [exit], List.prefix_rfl, List.prefix_rfl⟩

end Trace

theorem Machine.trace_extends_enter (m : Machine) (node : Node) (scope : ScopeId) :
    m.trace.Extends (m.enter node scope).trace := by
  rw [enter]
  split
  · exact m.trace.extends_enter node scope
  · exact .refl m.trace

theorem Machine.trace_extends_leave (m : Machine) (node : Node) (scope : ScopeId)
    (value : Option Value) : m.trace.Extends (m.leave node scope value).trace := by
  rw [leave]
  split
  · exact m.trace.extends_exit node scope value
  · exact .refl m.trace

/-! ## Another limit -/

/-- The same evaluator with another limit. -/
def Machine.withLimit (m : Machine) (limit : Nat) : Machine := { m with limit }

/-- **What a node ends with depends on the heap and on the constants alone,** and of the evaluator it
changes the heap alone. -/
theorem Ending.apply_eq (ending : Ending) (scope : ScopeId) {m m' : Machine}
    (hheap : m'.heap = m.heap) (hnumber : m'.number = m.number) :
    ending.apply scope m' =
      ((ending.apply scope m).1, { m' with heap := (ending.apply scope m).2.heap }) := by
  obtain ⟨heap, trace, depth, limit, tracing, number⟩ := m
  obtain ⟨heap', trace', depth', limit', tracing', number'⟩ := m'
  obtain rfl : heap' = heap := hheap
  obtain rfl : number' = number := hnumber
  cases ending with
  | bind target v =>
    simp only [Ending.apply]
    cases target.name? <;> rfl
  | lookUp name =>
    simp only [Ending.apply]
    cases heap'.get? scope name <;> rfl
  | result r => cases r <;> rfl
  | _ => rfl

/-- What a node ends with is the same for every evaluator of the same heap and constants; `view` turns
the evaluator into another one that has both. -/
theorem Ending.apply_view (ending : Ending) (scope : ScopeId) (m : Machine)
    (view : Machine → Machine)
    (hview : ∀ heap, view { m with heap } = { view m with heap }) (hheap : (view m).heap = m.heap)
    (hnumber : (view m).number = m.number) :
    ending.apply scope (view m) = ((ending.apply scope m).1, view (ending.apply scope m).2) := by
  have hself : ending.apply scope m =
      ((ending.apply scope m).1, { m with heap := (ending.apply scope m).2.heap }) :=
    ending.apply_eq scope rfl rfl
  rw [ending.apply_eq scope hheap hnumber, ← hview]
  exact Prod.ext rfl (congrArg view (congrArg Prod.snd hself).symm)

/-- What a node ends with does not depend on the limit. -/
theorem Ending.apply_withLimit (ending : Ending) (scope : ScopeId) (m : Machine) (limit : Nat) :
    ending.apply scope (m.withLimit limit) =
      ((ending.apply scope m).1, (ending.apply scope m).2.withLimit limit) :=
  ending.apply_view scope m (·.withLimit limit) (fun _ => rfl) rfl rfl

namespace Config

variable {c c₁ c₂ : Config}

/-- The same configuration of an evaluator with another limit. -/
def withLimit (c : Config) (limit : Nat) : Config := { c with machine := c.machine.withLimit limit }

theorem withLimit_deliver (m : Machine) (value : Option Value) (frames : List Frame)
    (limit : Nat) :
    (deliver m value frames).withLimit limit = deliver (m.withLimit limit) value frames := by
  cases frames <;> rfl

/-- **A step is one under every greater limit.** -/
theorem Step.withLimit {limit : Nat} (hle : c.machine.limit ≤ limit) (h : c.Step c₁) :
    (c.withLimit limit).Step (c₁.withLimit limit) := by
  cases h with
  | @enter m node scope frames allowed => exact .enter (Nat.lt_of_lt_of_le allowed hle)
  | @visit m f rest part move => exact .visit move
  | @call m f rest closure arguments move => exact .call move
  | @finish m f rest ending move =>
    have hfinish : Step ⟨m.withLimit limit, .advance, f :: rest⟩ _ := .finish move
    rw [Ending.apply_withLimit] at hfinish
    rw [withLimit_deliver]
    exact hfinish

theorem Reaches.withLimit {limit : Nat} (hle : c.machine.limit ≤ limit) (h : c.Reaches c₁) :
    (c.withLimit limit).Reaches (c₁.withLimit limit) := by
  induction h with
  | refl => exact .refl
  | tail hreach hstep ih =>
    exact ih.tail (hstep.withLimit (by rwa [(Reaches.sameKind hreach).limit]))

/-! ## There is one run -/

/-- A configuration has one next step at most. -/
theorem Step.deterministic (h : c.Step c₁) (h' : c.Step c₂) : c₁ = c₂ := by
  cases h with
  | enter _ =>
    cases h' with
    | enter _ => rfl
  | visit move =>
    cases h' with
    | visit move' =>
      obtain rfl := Move.visit.inj (move.symm.trans move')
      rfl
    | call move' => cases move.symm.trans move'
    | finish move' => cases move.symm.trans move'
  | call move =>
    cases h' with
    | visit move' => cases move.symm.trans move'
    | call move' =>
      obtain ⟨rfl, rfl⟩ := Move.call.inj (move.symm.trans move')
      rfl
    | finish move' => cases move.symm.trans move'
  | finish move =>
    cases h' with
    | visit move' => cases move.symm.trans move'
    | call move' => cases move.symm.trans move'
    | finish move' =>
      obtain rfl := Move.finish.inj (move.symm.trans move')
      rfl

/-- The run is over: the root has ended, or the limit forbids to go on. -/
def Ended (c : Config) : Prop := (∃ value, c.control = .stop value) ∨ c.Stuck

theorem Ended.not_step (h : c.Ended) : ¬ c.Step c₁ := by
  intro hstep
  cases hstep with
  | enter allowed =>
    rcases h with ⟨value, hcontrol⟩ | ⟨_, hlimit⟩
    · cases hcontrol
    · exact absurd allowed (Nat.not_lt_of_le hlimit)
  | visit _ | call _ | finish _ =>
    rcases h with ⟨value, hcontrol⟩ | ⟨⟨_, _, hcontrol⟩, _⟩ <;> cases hcontrol

theorem Ended.eq_of_reaches (h : c.Ended) (hreach : c.Reaches c₁) : c₁ = c := by
  rcases Relation.ReflTransGen.cases_head hreach with heq | ⟨_, hstep, _⟩
  · exact heq.symm
  · exact absurd hstep h.not_step

/-- **Every run comes to where the run from the same start is over.** -/
theorem Ended.reached (h : c₂.Ended) (h₂ : c.Reaches c₂) (h₁ : c.Reaches c₁) : c₁.Reaches c₂ := by
  have hunique : Relator.RightUnique Step := fun _ _ _ hstep hstep' => hstep.deterministic hstep'
  rcases Relation.ReflTransGen.total_of_right_unique hunique h₁ h₂ with hreach | hreach
  · exact hreach
  · rw [h.eq_of_reaches hreach]
    exact .refl

theorem Step.trace_extends (h : c.Step c₁) : c.machine.trace.Extends c₁.machine.trace := by
  cases h with
  | enter _ => exact Machine.trace_extends_enter _ _ _
  | visit _ => exact .refl _
  | call _ => exact .refl _
  | @finish m f rest ending move =>
    have hleave := Machine.trace_extends_leave (ending.apply f.scope m).2 f.node f.scope
      (ending.apply f.scope m).1
    rw [Ending.trace_apply] at hleave
    rwa [machine_deliver]

theorem Reaches.trace_extends (h : c.Reaches c₁) : c.machine.trace.Extends c₁.machine.trace := by
  induction h with
  | refl => exact .refl _
  | tail _ hstep ih => exact ih.trans hstep.trace_extends

end Config

/-! ## The depth is the number of open entries -/

@[simp] theorem length_notePart (node : Node) (nodes : List OpenNode) :
    (notePart node nodes).length = nodes.length := by
  cases nodes <;> rfl

@[simp] theorem length_noteResult (value : Option Value) (nodes : List OpenNode) :
    (noteResult value nodes).length = nodes.length := by
  cases nodes <;> rfl

namespace Config

variable {c c₁ : Config}

/-- What the run of a new evaluator keeps that records: the depth is the number of frames and that
of the open entries, and there never were more of them than the limit allows. -/
structure WithinLimit (c : Config) : Prop where
  depth_eq : c.machine.depth = c.frames.length
  open_eq : (openNodes c.machine.events).length = c.frames.length
  open_le : ∀ past, past <+: c.machine.events → (openNodes past).length ≤ c.machine.limit

theorem withinLimit_start (heap : Heap) (limit : Nat) (node : Node) (scope : ScopeId) :
    (start (Machine.new heap limit true) node scope).WithinLimit where
  depth_eq := rfl
  open_eq := rfl
  open_le := by
    intro past hpast
    rw [List.prefix_nil.mp hpast]
    exact Nat.zero_le _

/-- An event keeps the number of open entries within a bound if there are not too many after it. -/
theorem open_le_concat {events : List Event} {e : Event} {bound : Nat}
    (hbefore : ∀ past, past <+: events → (openNodes past).length ≤ bound)
    (hafter : (openNodes (events ++ [e])).length ≤ bound) (past : List Event)
    (hpast : past <+: events ++ [e]) : (openNodes past).length ≤ bound := by
  rcases List.prefix_concat_iff.mp hpast with rfl | hpast
  · exact hafter
  · exact hbefore past hpast

/-- **A step keeps the open entries within the limit.** An entry is one more, and the limit allows
it; an exit is one less. -/
theorem Step.withinLimit (ht : c.machine.tracing = true) (hstep : c.Step c₁) (h : c.WithinLimit) :
    c₁.WithinLimit := by
  cases hstep with
  | @enter m node scope frames allowed =>
    have hdepth : m.depth = frames.length := h.depth_eq
    have hopen : (openNodes m.events).length = frames.length := h.open_eq
    have hevents := Machine.events_enter ht node scope
    have hafter : (openNodes (m.enter node scope).events).length = frames.length + 1 := by
      rw [hevents, openNodes_concat, Event.track, List.length_cons, length_notePart, hopen]
    refine ⟨congrArg (· + 1) hdepth, hafter, ?_⟩
    show ∀ past, past <+: (m.enter node scope).events → (openNodes past).length ≤ m.limit
    rw [hevents] at hafter ⊢
    exact open_le_concat h.open_le (by rw [hafter, ← hdepth]; exact allowed)
  | visit _ => exact ⟨h.depth_eq, h.open_eq, h.open_le⟩
  | call _ => exact ⟨h.depth_eq, h.open_eq, h.open_le⟩
  | @finish m f rest ending move =>
    have hdepth : m.depth = rest.length + 1 := h.depth_eq
    have hopen : (openNodes m.events).length = rest.length + 1 := h.open_eq
    have hsetup := ending.sameSetup_apply f.scope m
    have hevents := Machine.events_finish ht ending f.node f.scope (ending.apply f.scope m).1
    have hafter : (openNodes ((ending.apply f.scope m).2.leave f.node f.scope
        (ending.apply f.scope m).1).events).length = rest.length := by
      rw [hevents, openNodes_concat, Event.track, length_noteResult, List.length_tail, hopen]
      rfl
    have hframes : (deliver ((ending.apply f.scope m).2.leave f.node f.scope
        (ending.apply f.scope m).1) (ending.apply f.scope m).1 rest).frames.length =
        rest.length := by
      cases rest <;> rfl
    refine ⟨?_, ?_, ?_⟩
    · rw [machine_deliver, hframes]
      show (ending.apply f.scope m).2.depth - 1 = rest.length
      rw [hsetup.depth, hdepth]
      rfl
    · rw [machine_deliver, hframes, hafter]
    · rw [machine_deliver]
      show ∀ past, past <+: (Machine.leave _ _ _ _).events →
        (openNodes past).length ≤ (ending.apply f.scope m).2.limit
      have hle : rest.length ≤ m.limit := by
        have hbound := h.open_le m.events List.prefix_rfl
        rw [hopen] at hbound
        exact Nat.le_of_succ_le hbound
      rw [hsetup.limit]
      rw [hevents] at hafter ⊢
      exact open_le_concat h.open_le (by rw [hafter]; exact hle)

theorem Reaches.withinLimit (ht : c.machine.tracing = true) (hreach : c.Reaches c₁)
    (h : c.WithinLimit) : c₁.WithinLimit := by
  induction hreach with
  | refl => exact h
  | tail hreach hstep ih => exact hstep.withinLimit ((Reaches.tracing_eq hreach).trans ht) ih

end Config

/-! ## Evaluations under two limits -/

namespace Machine

/-- An evaluation leaves the depth as it was, whether there is a value or it is given up. -/
theorem depth_eval (m : Machine) (node : Node) (scope : ScopeId) :
    (m.eval node scope).2.depth = m.depth := by
  have h := m.eval_steps node scope
  rcases heval : m.eval node scope with ⟨o | value, m'⟩
  · rw [heval] at h
    obtain ⟨c, _, _, _, rfl⟩ := h
    rfl
  · rw [heval] at h
    exact h.2.depth

theorem limit_eval (m : Machine) (node : Node) (scope : ScopeId) :
    (m.eval node scope).2.limit = m.limit := by
  have h := m.eval_steps node scope
  rcases heval : m.eval node scope with ⟨o | value, m'⟩
  · rw [heval] at h
    obtain ⟨c, hreach, _, _, rfl⟩ := h
    exact (Config.Reaches.sameKind hreach).limit
  · rw [heval] at h
    exact h.2.limit

/-- The run of an evaluation, up to where it is over. -/
theorem eval_ended (m : Machine) (node : Node) (scope : ScopeId) :
    ∃ c : Config, (Config.start m node scope).Reaches c ∧ c.Ended ∧
      (m.eval node scope).2.heap = c.machine.heap ∧
      (m.eval node scope).2.trace = c.machine.trace ∧
      ∀ value, (m.eval node scope).1 = .ok value ↔ c.control = .stop value := by
  obtain ⟨c, hreach, hheap, htrace, hok, herror⟩ := m.eval_reaches node scope
  cases hvalue : (m.eval node scope).1 with
  | ok value =>
    have hcontrol := (hok value hvalue).1
    refine ⟨c, hreach, Or.inl ⟨value, hcontrol⟩, hheap, htrace, fun value' => ?_⟩
    rw [hcontrol, Except.ok.injEq, Control.stop.injEq]
  | error o =>
    have hstuck := herror o hvalue
    refine ⟨c, hreach, Or.inr hstuck, hheap, htrace, fun value => ?_⟩
    obtain ⟨⟨_, _, hcontrol⟩, _⟩ := hstuck
    rw [hcontrol]
    exact ⟨fun h => (by cases h), fun h => (by cases h)⟩

/-- An evaluation is given up where the run is stuck, and its overflow tells the depth there. -/
theorem eval_overflow {m : Machine} {node : Node} {scope : ScopeId} {o : Overflow}
    (ho : (m.eval node scope).1 = .error o) :
    ∃ c : Config, (Config.start m node scope).Reaches c ∧
      (m.eval node scope).2.trace = c.machine.trace ∧ c.Stuck ∧ o = c.overflow := by
  have h := m.eval_steps node scope
  rcases heval : m.eval node scope with ⟨o' | value, m'⟩
  · rw [heval] at h ho
    obtain ⟨c, hreach, hstuck, hover, rfl⟩ := h
    obtain rfl := Except.error.inj ho
    exact ⟨c, hreach, rfl, hstuck, hover⟩
  · rw [heval] at ho
    cases ho

/-- **Under a greater limit there is the same value, or a longer trace.** The evaluator comes
through the configuration where the smaller limit ends the run; where the root has ended there, this
is the end under the greater limit too. -/
theorem eval_withLimit {m : Machine} {limit : Nat} (hle : m.limit ≤ limit) (node : Node)
    (scope : ScopeId) :
    (∀ value, (m.eval node scope).1 = .ok value →
      ((m.withLimit limit).eval node scope).1 = .ok value ∧
      ((m.withLimit limit).eval node scope).2.heap = (m.eval node scope).2.heap ∧
      ((m.withLimit limit).eval node scope).2.trace = (m.eval node scope).2.trace) ∧
    (m.eval node scope).2.trace.Extends ((m.withLimit limit).eval node scope).2.trace := by
  obtain ⟨c, hreach, _, hheap, htrace, hok⟩ := m.eval_ended node scope
  obtain ⟨c', hreach', hended', hheap', htrace', hok'⟩ := (m.withLimit limit).eval_ended node scope
  have hthrough : (c.withLimit limit).Reaches c' :=
    hended'.reached hreach' (Config.Reaches.withLimit hle hreach)
  refine ⟨fun value hvalue => ?_, ?_⟩
  · have hcontrol : (c.withLimit limit).control = .stop value := (hok value).mp hvalue
    obtain rfl := Config.Ended.eq_of_reaches (Or.inl ⟨value, hcontrol⟩) hthrough
    exact ⟨(hok' value).mpr hcontrol, hheap'.trans hheap.symm, htrace'.trans htrace.symm⟩
  · have hgrows := hthrough.trace_extends
    rw [htrace, htrace']
    exact hgrows

/-- **The limit only cuts an evaluation short.** A new evaluator that records has at no time more
open entries than its limit. If it comes to a value, so does one with a greater limit, to the same
one with the same heap and the same trace. If it gives up, it has just as many open entries as its
limit, says so, and its trace is the beginning of the trace under the greater limit. And every
evaluator is left at the depth it had. -/
theorem eval_under_limits (heap : Heap) {limit greater : Nat} (hle : limit ≤ greater) (root : Node)
    (scope : ScopeId) :
    let run := (Machine.new heap limit true).eval root scope
    let longer := (Machine.new heap greater true).eval root scope
    (∀ past, past <+: run.2.events → (openNodes past).length ≤ limit) ∧
      (∀ value, run.1 = .ok value →
        longer.1 = .ok value ∧ longer.2.heap = run.2.heap ∧ longer.2.trace = run.2.trace) ∧
      (∀ o, run.1 = .error o →
        o = ⟨limit, limit⟩ ∧ (openNodes run.2.events).length = limit ∧
          run.2.trace.Extends longer.2.trace) ∧
      ∀ (m : Machine) (node : Node) (scope : ScopeId), (m.eval node scope).2.depth = m.depth := by
  intro run longer
  have hkeeps : ∀ c, (Config.start (Machine.new heap limit true) root scope).Reaches c →
      c.WithinLimit ∧ c.machine.limit = limit := fun c hreach =>
    ⟨Config.Reaches.withinLimit rfl hreach (Config.withinLimit_start heap limit root scope),
      (Config.Reaches.sameKind hreach).limit⟩
  obtain ⟨hsame, hextends⟩ :=
    eval_withLimit (m := Machine.new heap limit true) hle root scope
  refine ⟨fun past hpast => ?_, hsame, fun o ho => ?_, depth_eval⟩
  · obtain ⟨c, hreach, _, _, htrace, _⟩ := (Machine.new heap limit true).eval_ended root scope
    obtain ⟨hwithin, hlimit⟩ := hkeeps c hreach
    rw [← hlimit]
    exact hwithin.open_le past (by rwa [events, ← htrace])
  · obtain ⟨c, hreach, htrace, ⟨_, hstuck⟩, rfl⟩ := eval_overflow ho
    obtain ⟨hwithin, hlimit⟩ := hkeeps c hreach
    have hopen : (openNodes c.machine.events).length = c.machine.depth :=
      hwithin.open_eq.trans hwithin.depth_eq.symm
    have hdepth : c.machine.depth = limit := by
      have hbound := hwithin.open_le _ List.prefix_rfl
      rw [hopen] at hbound
      rw [← hlimit]
      exact Nat.le_antisymm hbound hstuck
    refine ⟨by rw [Config.overflow, hdepth, hlimit], ?_, hextends⟩
    show (openNodes run.2.trace.events.toList).length = limit
    rw [htrace, ← hdepth, ← hopen]
    rfl

/-- A call that three open entries are not enough for, and nine are. -/
theorem eval_under_limits_identityCall :
    let heap := (Heap.empty.newScope none).2
    let run := (Machine.new heap 3 true).eval identityCall 0
    let longer := (Machine.new heap 9 true).eval identityCall 0
    3 ≤ 9 ∧ run.1 = .error ⟨3, 3⟩ ∧ longer.1 = .ok (some (.integer (.made 1) 5)) ∧
      (openNodes run.2.events).length = 3 ∧ run.2.trace.Extends longer.2.trace ∧
      ∀ past, past <+: run.2.events → (openNodes past).length ≤ 3 := by
  have hover : ((Machine.new (Heap.empty.newScope none).2 3 true).eval identityCall 0).1 =
      .error ⟨3, 3⟩ := by cbv
  have hvalue : ((Machine.new (Heap.empty.newScope none).2 9 true).eval identityCall 0).1 =
      .ok (some (.integer (.made 1) 5)) := by cbv
  have hle : 3 ≤ 9 := by decide
  obtain ⟨hopen, _, herror, _⟩ :=
    Machine.eval_under_limits (Heap.empty.newScope none).2 hle identityCall 0
  obtain ⟨_, hend, hextends⟩ := herror _ hover
  exact ⟨hle, hover, hvalue, hend, hextends, hopen⟩

end Machine

end TraceTree

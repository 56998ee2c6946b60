import TraceTree.Proofs.Trace.Limit

set_option autoImplicit false

/-! # Recording leaves evaluations as they are

The trace is written and never read: what a node does next depends on the values of its parts, and
what it ends with on the heap. So every step is also one of an evaluator that records nothing, and
as there is one run from each start, an evaluator comes to the same with and without recording, also
where it is given up (`Machine.eval_silent`). -/

namespace TraceTree

/-! ## What an ended run comes to -/

/-- The outcome that the end of a run stands for, where the evaluator had the depth `depth` at the
start. -/
def Config.outcome (c : Config) (depth : Nat) : Except Overflow (Option Value) × Machine :=
  match c.control with
  | .stop value => (.ok value, c.machine)
  | _ => (.error c.overflow, { c.machine with depth })

/-- **An evaluation comes to what the end of its run stands for,** and there is only one end. -/
theorem Machine.eval_eq_outcome {m : Machine} {node : Node} {scope : ScopeId} {c : Config}
    (hreach : (Config.start m node scope).Reaches c) (hended : c.Ended) :
    m.eval node scope = c.outcome m.depth := by
  have h := m.eval_steps node scope
  rcases heval : m.eval node scope with ⟨o | value, m'⟩
  · rw [heval] at h
    obtain ⟨c', hreach', hstuck, rfl, rfl⟩ := h
    obtain rfl := hended.eq_of_reaches (Config.Ended.reached (Or.inr hstuck) hreach' hreach)
    obtain ⟨⟨node', scope', hcontrol⟩, _⟩ := hstuck
    rw [Config.outcome, hcontrol]
  · rw [heval] at h
    have hstop : Config.Ended ⟨m', .stop value, []⟩ := Or.inl ⟨value, rfl⟩
    obtain rfl := hended.eq_of_reaches (hstop.reached h.1 hreach)
    rfl

/-! ## An evaluator that records nothing -/

/-- The same evaluator without its trace, recording nothing. -/
def Machine.silent (m : Machine) : Machine := { m with trace := .empty, tracing := false }

/-- The same node, with the step of its entry forgotten. -/
def Frame.silent (f : Frame) : Frame := { f with opened := 0 }

/-- The same configuration of an evaluator that records nothing. -/
def Config.silent (c : Config) : Config :=
  ⟨c.machine.silent, c.control, c.frames.map Frame.silent⟩

namespace Config

variable {c c' : Config}

theorem silent_deliver (m : Machine) (value : Option Value) (frames : List Frame) :
    (deliver m value frames).silent = deliver m.silent value (frames.map Frame.silent) := by
  cases frames <;> rfl

/-- **A step does not depend on what is recorded.** -/
theorem Step.silent (h : c.Step c') : c.silent.Step c'.silent := by
  cases h with
  | enter allowed => exact .enter allowed
  | visit move => exact .visit move
  | call move => exact .call move
  | @finish m f rest ending move =>
    have happly : ending.apply f.scope m.silent =
        ((ending.apply f.scope m).1, (ending.apply f.scope m).2.silent) :=
      ending.apply_view f.scope m Machine.silent (fun _ => rfl) rfl rfl
    have hfinish : Step ⟨m.silent, .advance, f.silent :: rest.map Frame.silent⟩ _ := .finish move
    rw [show f.silent.scope = f.scope from rfl, happly] at hfinish
    rw [silent_deliver]
    exact hfinish

theorem Reaches.silent (h : c.Reaches c') : c.silent.Reaches c'.silent := by
  induction h with
  | refl => exact .refl
  | tail _ hstep ih => exact ih.tail hstep.silent

theorem Ended.silent (h : c.Ended) : c.silent.Ended := h

theorem outcome_silent (c : Config) (depth : Nat) :
    c.silent.outcome depth = ((c.outcome depth).1, (c.outcome depth).2.silent) := by
  obtain ⟨m, control, frames⟩ := c
  cases control <;> rfl

end Config

namespace Machine

/-- **An evaluator that records nothing comes to the same.** -/
theorem eval_silent (m : Machine) (node : Node) (scope : ScopeId) :
    m.silent.eval node scope = ((m.eval node scope).1, (m.eval node scope).2.silent) := by
  obtain ⟨c, hreach, hended, _⟩ := m.eval_ended node scope
  have hsilent : m.silent.eval node scope = c.silent.outcome m.depth :=
    eval_eq_outcome (Config.Reaches.silent hreach) hended.silent
  rw [hsilent, eval_eq_outcome hreach hended]
  exact c.outcome_silent m.depth

/-- **Tracing does not influence evaluation.** Whatever is evaluated, on whatever heap and with
whatever limit, a new evaluator gives the same value, or gives up at the same depth, whether it
records or not, and leaves the same heap: the same bindings in every scope. One that does not record
has no trace in the end. -/
theorem eval_without_trace (heap : Heap) (limit : Nat) (root : Node) (scope : ScopeId) :
    let traced := (new heap limit true).eval root scope
    let plain := (new heap limit false).eval root scope
    plain.1 = traced.1 ∧ plain.2.heap = traced.2.heap ∧ plain.2.trace = .empty := by
  intro traced plain
  have heval : plain = (traced.1, traced.2.silent) := (new heap limit true).eval_silent root scope
  rw [heval]
  exact ⟨rfl, rfl, rfl⟩

end Machine

end TraceTree

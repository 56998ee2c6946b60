import TraceTree.Proofs.Diagram.Sharing
import TraceTree.Proofs.Workspace.Identity

set_option autoImplicit false

/-! # The trees of runs

Where inputs are run in a workspace one after another, nothing has to be presumed of their nodes and
values: they are told apart by their numbers (`Workspace.identified_after`). So whatever was run
before, the tree of a run loses no event (`Workspace.shows_runInput`), and a shared value has one
number in it (`Workspace.shares_runInput`). This is so of a trace that was given up or cut off, too,
and whatever later inputs have bound when the tree is drawn. -/

namespace TraceTree.Workspace

variable {input : Input} {run : Run} {trace : Trace}

/-- **The scenes of a workspace are faithful.** -/
theorem faithful_runInput (earlier : List Input)
    (h : ((empty.after earlier).runInput input).1 = .ok run)
    (htrace : trace = run.trace ∨ ∃ step, trace = run.trace.upTo step) (later : Heap)
    (verbosity : Verbosity) : (⟨later, trace, verbosity⟩ : Scene).Faithful := by
  obtain ⟨nodes, made, hidentified⟩ := identified_after earlier
  obtain ⟨hread, -, hrun⟩ := parse_of_runInput h
  obtain ⟨nodes', _, _, hroot, hheap⟩ := hidentified.parse hread
  rw [hrun] at htrace
  exact Machine.faithful_eval hidentified.globals_lt hheap hroot htrace later verbosity

/-- **No event of a run is lost by its tree,** whatever was run before and whatever is bound when the
tree is drawn. -/
theorem shows_runInput (earlier : List Input)
    (h : ((empty.after earlier).runInput input).1 = .ok run)
    (htrace : trace = run.trace ∨ ∃ step, trace = run.trace.upTo step) (later : Heap)
    (verbosity : Verbosity) (m : Markup) {i : Nat} {e : Event} (he : trace.events[i]? = some e) :
    e.step = i ∧ (⟨later, trace, verbosity⟩ : Scene).Shows m e ∧
      Text.OccursIn (toString i) ((⟨later, trace, verbosity⟩ : Scene).evaluationTree m) := by
  have hfaithful := faithful_runInput earlier h htrace later verbosity
  rw [(parse_of_runInput h).2.2] at htrace
  obtain ⟨_, hnested⟩ := Machine.exists_wellNested (sound_after earlier).2 htrace
  exact Scene.shows_at hfaithful hnested he

/-- **A shared value gets its number where it appears for the first time,** whichever run made it, and
appears as a reference to this number from then on. At its first appearance it is drawn in full,
unless its body is being drawn around it. -/
theorem shares_runInput (earlier : List Input)
    (h : ((empty.after earlier).runInput input).1 = .ok run)
    (htrace : trace = run.trace ∨ ∃ step, trace = run.trace.upTo step) (later : Heap)
    {verbosity : Verbosity} (hverbosity : verbosity.sharesValues = true) {d : Diagram}
    (hd : (⟨later, trace, verbosity⟩ : Scene).diagram? = some d) :
    ∃ numbers, ∀ v, (⟨later, trace, verbosity⟩ : Scene).isShared v = true →
      (∃ a ∈ d.appearances 0 [], a.drawing.shown? = some v) →
        (⟨later, trace, verbosity⟩ : Scene).Shares numbers (d.appearances 0 []) v :=
  Scene.shares_diagram (faithful_runInput earlier h htrace later verbosity) hverbosity hd

end TraceTree.Workspace

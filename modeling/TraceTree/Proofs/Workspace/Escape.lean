import TraceTree.Proofs.Eval.Escape
import TraceTree.Proofs.Workspace.Runs

set_option autoImplicit false

/-! # Wrappers that escape from runs

Inputs that are run one after another share a heap, so a wrapper that one run lets escape is there
for all later ones. `Workspace.noEscape_iff` says when that happens: in some run a `let`, a `return`
or a call keeps a wrapper that it took for an operand. -/

namespace TraceTree

namespace Workspace

variable {w : Workspace} {inputs : List Input} {c c' : Config}

/-! ## Runs in which no node keeps a wrapper -/

/-- The global scope exists, and no scope binds a wrapper. -/
structure Wrapperless (w : Workspace) : Prop where
  globals_lt : w.globals < w.heap.scopes.size
  bound : ∀ s name v, w.heap.Binds s name v → v.isWrapper = false

theorem wrapperless_empty : empty.Wrapperless where
  globals_lt := Nat.zero_lt_one
  bound := fun s name v hv => absurd hv (not_binds_empty s name v)

/-- In a run in which no node keeps a wrapper, none escapes. -/
theorem contained_of_reaches (h : w.Wrapperless) {limit : Nat} {root : Node}
    (hkeeps : ∀ c, (Config.start (Machine.new w.heap limit true) root w.globals).Reaches c →
      ¬ c.Keeps)
    (hreach : (Config.start (Machine.new w.heap limit true) root w.globals).Reaches c) :
    c.Contained := by
  have hrec : c.Recorded (Machine.new w.heap limit true) root w.globals :=
    ⟨rfl, rfl, h.globals_lt, hreach⟩
  refine hrec.induct (P := Config.Contained) ?_ fun c₁ c₂ hrec₁ hcontained hstep =>
    hstep.contained hrec₁.tracing_eq (hkeeps c₁ hrec₁.reaches) hcontained
  refine ⟨⟨h.bound, ?_, ?_⟩, fun f hf => absurd hf List.not_mem_nil⟩
  · exact fun e he => absurd he List.not_mem_nil
  · exact fun e he => absurd he List.not_mem_nil

theorem wrapperless_runInput (h : w.Wrapperless) {input : Input}
    (hkeeps : ∀ c, w.Visits [input] c → ¬ c.Keeps) : (w.runInput input).2.Wrapperless := by
  refine ⟨globals_lt_runInput h.globals_lt input, ?_⟩
  unfold runInput run
  split
  · exact h.bound
  · next parsed hparsed =>
    obtain ⟨c, hrec, hheap, _⟩ :=
      Machine.eval_recorded w.heap input.limit parsed.root h.globals_lt
    have hcontained : c.Contained :=
      contained_of_reaches h (fun c hc => hkeeps c (.now hparsed hc)) hrec.reaches
    intro s name v hv
    change (Machine.heap _).Binds s name v at hv
    rw [hheap] at hv
    exact hcontained.noEscape.bound s name v hv

theorem not_isWrapper_of_runInput (h : w.Wrapperless) {input : Input} {run : Run} {value : Value}
    (hkeeps : ∀ c, w.Visits [input] c → ¬ c.Keeps) (hran : (w.runInput input).1 = .ok run)
    (hvalue : run.outcome = .ok (some value)) : value.isWrapper = false := by
  obtain ⟨hread, houtcome, -⟩ := parse_of_runInput hran
  obtain ⟨c, hrec, _, _, hok⟩ :=
    Machine.eval_recorded w.heap input.limit run.parsed.root h.globals_lt
  have hcontained : c.Contained :=
    contained_of_reaches h (fun c hc => hkeeps c (.now hread hc)) hrec.reaches
  rw [houtcome] at hvalue
  obtain ⟨_, step, hlast⟩ := hrec.nested.stopped _ (hok _ hvalue).1
  obtain ⟨id, statements, hroot⟩ := program_of_parseAt hread
  exact hcontained.noEscape.unwrapped _ (List.mem_of_getLast? hlast) value rfl
    (by rw [Event.node, hroot]; rfl)

theorem noEscape_of_not_keeps (h : w.Wrapperless) (hkeeps : ∀ c, w.Visits inputs c → ¬ c.Keeps) :
    (∀ c, w.Visits inputs c → NoEscape c.machine.heap c.machine.events) ∧
      ∀ value, w.Reports inputs value → value.isWrapper = false := by
  induction inputs generalizing w with
  | nil => exact ⟨fun _ hc => (by cases hc), fun _ hvalue => (by cases hvalue)⟩
  | cons input rest ih =>
    have hfirst : ∀ c, w.Visits [input] c → ¬ c.Keeps := by
      intro c hc
      cases hc with
      | now read reaches => exact hkeeps c (.now read reaches)
      | later visits => cases visits
    obtain ⟨hvisits, hreports⟩ :=
      ih (wrapperless_runInput h hfirst) fun c hc => hkeeps c (.later hc)
    refine ⟨?_, ?_⟩
    · intro c hc
      cases hc with
      | now read reaches =>
        exact (contained_of_reaches h (fun c hc => hkeeps c (.now read hc)) reaches).noEscape
      | later visits => exact hvisits c visits
    · intro value hvalue
      cases hvalue with
      | now ran outcome => exact not_isWrapper_of_runInput h hfirst ran outcome
      | later reports => exact hreports value reports

/-- **When wrappers escape.** Over any sequence of runs no wrapper of a `return` is ever bound, put
into another one, left by a program or a call, or reported, exactly if no node ever keeps one that
it took for an operand. -/
theorem noEscape_iff (inputs : List Input) :
    ((∀ c, empty.Visits inputs c → NoEscape c.machine.heap c.machine.events) ∧
        ∀ value, empty.Reports inputs value → value.isWrapper = false) ↔
      ∀ c, empty.Visits inputs c → ¬ c.Keeps := by
  refine ⟨?_, noEscape_of_not_keeps wrapperless_empty⟩
  rintro ⟨hno, _⟩ c hc hkeeps
  obtain ⟨_, _, _, hrec⟩ := hc.recorded wrapperless_empty.globals_lt
  obtain ⟨c', hstep, hescape⟩ := Config.escape_of_keeps hrec hkeeps
  exact hescape (hno c' (hc.step hstep))

/-- Wrappers do escape: a `let` binds one, and a `return` around another `return` leaves one for the
value of its program. -/
theorem wrapper_escapes :
    (empty.runInput ⟨"let x = if (true) { return 5; };", .program, 9⟩).2.heap.Binds
        empty.globals "x" (.returned (.made 1) (.integer (.made 0) 5)) ∧
      empty.Reports [⟨"return if (true) { return 5; };", .program, 9⟩]
        (.returned (.made 1) (.integer (.made 0) 5)) := by
  refine ⟨?_, .of_outcome ?_⟩
  · unfold Heap.Binds
    cbv
  · cbv

end Workspace

end TraceTree

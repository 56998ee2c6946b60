import TraceTree.Proofs.Eval.Keeping
import TraceTree.Proofs.Syntax.Reading
import TraceTree.Proofs.Trace.Nesting
import TraceTree.Workspace

set_option autoImplicit false

/-! # Runs in a workspace

Inputs that are run one after another share a heap. `Workspace.Visits` are the moments of their
evaluation and `Workspace.Reports` are the values that come of them. -/

namespace TraceTree

/-! ## Runs one after another -/

/-- An input to be run. -/
structure Input where
  source : String
  level : Level
  limit : Nat

namespace Workspace

/-- Read an input and evaluate it, recording what happens. -/
def runInput (w : Workspace) (input : Input) : Except ParseError Run × Workspace :=
  w.run input.source input.level input.limit true

/-- A workspace in which inputs have been run. -/
def after (w : Workspace) (inputs : List Input) : Workspace :=
  inputs.foldl (fun w input => (w.runInput input).2) w

/-- A moment of the evaluation of one of the inputs. -/
inductive Visits : Workspace → List Input → Config → Prop where
  | now {w : Workspace} {input : Input} {rest : List Input} {c : Config} {parsed : Parsed}
      (read : w.parse input.source input.level = .ok parsed)
      (reaches : (Config.start (Machine.new w.heap input.limit true) parsed.root w.globals).Reaches
        c) : Visits w (input :: rest) c
  | later {w : Workspace} {input : Input} {rest : List Input} {c : Config}
      (visits : Visits (w.runInput input).2 rest c) : Visits w (input :: rest) c

/-- A value that the run of one of the inputs reports. -/
inductive Reports : Workspace → List Input → Value → Prop where
  | now {w : Workspace} {input : Input} {rest : List Input} {run : Run} {value : Value}
      (ran : (w.runInput input).1 = .ok run) (outcome : run.outcome = .ok (some value)) :
      Reports w (input :: rest) value
  | later {w : Workspace} {input : Input} {rest : List Input} {value : Value}
      (reports : Reports (w.runInput input).2 rest value) : Reports w (input :: rest) value

variable {w : Workspace} {inputs : List Input} {c c' : Config}

theorem Visits.step (h : w.Visits inputs c) (hstep : c.Step c') : w.Visits inputs c' := by
  induction h with
  | now read reaches => exact .now read (reaches.tail hstep)
  | later _ ih => exact .later (ih hstep)

theorem Reports.of_outcome {input : Input} {rest : List Input} {value : Value}
    (h : (w.runInput input).1.map (·.outcome) = .ok (.ok (some value))) :
    w.Reports (input :: rest) value := by
  cases hrun : (w.runInput input).1 with
  | error e =>
    rw [hrun] at h
    cases h
  | ok run =>
    rw [hrun] at h
    exact .now hrun (Except.ok.inj h)

/-- What every run keeps holds whatever is run. -/
theorem after_induction {P : Workspace → Prop} (hw : P w)
    (hrun : ∀ w input, P w → P (w.runInput input).2) (inputs : List Input) : P (w.after inputs) :=
  List.foldlRecOn inputs _ hw fun w hw input _ => hrun w input hw

/-- What a run reports is what the evaluation of the input that was read comes to. -/
theorem parse_of_runInput {input : Input} {run : Run} (h : (w.runInput input).1 = .ok run) :
    let evaluation := (Machine.new w.heap input.limit true).eval run.parsed.root w.globals
    w.parse input.source input.level = .ok run.parsed ∧ run.outcome = evaluation.1 ∧
      run.trace = evaluation.2.trace := by
  unfold runInput Workspace.run at h
  split at h
  · cases h
  · next parsed hparsed =>
    obtain rfl := Except.ok.inj h
    exact ⟨hparsed, rfl, rfl⟩

/-- Nothing is bound at first. -/
theorem not_binds_empty (s : ScopeId) (name : String) (v : Value) :
    ¬ empty.heap.Binds s name v := by
  intro hv
  have hnone : empty.heap.bindings s = [] := by
    show (Heap.empty.newScope none).2.bindings s = []
    rw [Heap.bindings_newScope, Heap.bindings_of_size_le (Nat.zero_le s)]
  rw [Heap.Binds, hnone] at hv
  cases hv

theorem globals_lt_runInput (h : w.globals < w.heap.scopes.size) (input : Input) :
    (w.runInput input).2.globals < (w.runInput input).2.heap.scopes.size := by
  unfold runInput run
  split
  · exact h
  · next parsed hparsed =>
    obtain ⟨c, hrec, hheap, _⟩ := Machine.eval_recorded w.heap input.limit parsed.root h
    show w.globals < Array.size (Heap.scopes (Machine.heap _))
    rw [hheap]
    exact Nat.lt_of_lt_of_le h (Config.Reaches.heap_extends hrec.reaches).size_le

/-- The heap of a workspace is sound, and the global scope is one of its scopes. -/
def Sound (w : Workspace) : Prop := w.heap.Sound ∧ w.globals < w.heap.scopes.size

theorem sound_empty : empty.Sound := by
  refine ⟨⟨?_, fun s name v hv => absurd hv (not_binds_empty s name v)⟩, Nat.zero_lt_one⟩
  intro s outer houter
  cases s with
  | zero => cases houter
  | succ s => cases houter

theorem Sound.runInput (h : w.Sound) (input : Input) : (w.runInput input).2.Sound := by
  refine ⟨?_, globals_lt_runInput h.2 input⟩
  unfold Workspace.runInput run
  split
  · exact h.1
  · exact Machine.sound_eval (m := Machine.new w.heap input.limit true) ⟨h.1.outer_lt, h.1.bound⟩ _
      h.2

/-- **Whatever was run, the heap is sound.** -/
theorem sound_after (inputs : List Input) : (empty.after inputs).Sound :=
  after_induction sound_empty (fun _ input h => h.runInput input) inputs

section

variable {P Bound : Value → Prop} (hkept : Value.Kept P Bound)

include hkept

/-- What a run leaves for later ones, and what it reports. -/
theorem upholds_runInput (hbound : ∀ s name v, w.heap.Binds s name v → Bound v) (input : Input) :
    (∀ s name v, (w.runInput input).2.heap.Binds s name v → Bound v) ∧
      ∀ run value, (w.runInput input).1 = .ok run → run.outcome = .ok (some value) → P value := by
  cases hparsed : w.parse input.source input.level with
  | error e =>
    have hran : w.runInput input = (.error e, w) := by rw [runInput, run, hparsed]
    rw [hran]
    exact ⟨hbound, fun run value hrun => by cases hrun⟩
  | ok parsed =>
    have hstart := Config.upholds_start hkept (m := Machine.new w.heap input.limit true) rfl hbound
      parsed.root w.globals
    obtain ⟨c, hreach, hheap, _, hok, _⟩ :=
      (Machine.new w.heap input.limit true).eval_reaches parsed.root w.globals
    have hupholds : c.Upholds P Bound := Config.Reaches.upholds hkept hreach hstart
    rw [runInput, run, hparsed]
    refine ⟨?_, ?_⟩
    · intro s name v hv
      change (Machine.heap _).Binds s name v at hv
      rw [hheap] at hv
      exact hupholds.bound s name v hv
    · intro run value hrun hvalue
      rw [← Except.ok.inj hrun] at hvalue
      exact hupholds.held value (.result (hok _ hvalue).1)

/-- **Every moment of every run keeps the properties of values,** and so do the workspace in the end
and the values reported. -/
theorem upholds_inputs (hbound : ∀ s name v, w.heap.Binds s name v → Bound v)
    (inputs : List Input) :
    (∀ c, w.Visits inputs c → c.Upholds P Bound) ∧
      (∀ s name v, (w.after inputs).heap.Binds s name v → Bound v) ∧
      ∀ value, w.Reports inputs value → P value := by
  induction inputs generalizing w with
  | nil => exact ⟨fun _ hc => (by cases hc), hbound, fun _ hvalue => (by cases hvalue)⟩
  | cons input rest ih =>
    obtain ⟨hleft, hreported⟩ := upholds_runInput hkept hbound input
    obtain ⟨hvisits, hafter, hreports⟩ := ih hleft
    refine ⟨?_, hafter, ?_⟩
    · intro c hc
      cases hc with
      | now read reaches =>
        exact Config.Reaches.upholds hkept reaches
          (Config.upholds_start hkept rfl hbound _ w.globals)
      | later visits => exact hvisits c visits
    · intro value hvalue
      cases hvalue with
      | now ran outcome => exact hreported _ value ran outcome
      | later reports => exact hreports value reports

end

theorem Visits.recorded (hlt : w.globals < w.heap.scopes.size) (h : w.Visits inputs c) :
    ∃ m root scope, c.Recorded m root scope := by
  induction h with
  | now read reaches => exact ⟨_, _, _, rfl, rfl, hlt, reaches⟩
  | later _ ih => exact ih (globals_lt_runInput hlt _)

end Workspace

end TraceTree

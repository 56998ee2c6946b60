import TraceTree.Proofs.Eval.Later
import TraceTree.Proofs.Workspace.Runs

set_option autoImplicit false

/-! # Workspaces that begin later

A workspace with a new global scope is an empty one on the heap that was there before
(`Workspace.cleared_eq_later`), and running an input there comes to what it comes to in an empty one, later
(`Workspace.run_later`). -/

namespace TraceTree

/-- A workspace that begins later. -/
def Workspace.later (p : Past) (w : Workspace) : Workspace where
  heap := w.heap.later p
  globals := p.scope w.globals
  nextNode := p.nodes + w.nextNode

/-- The same run, later. -/
def Run.later (p : Past) (run : Run) : Run where
  parsed := run.parsed.later p.nodes
  outcome := run.outcome.map (·.map (Value.later p))
  trace := run.trace.later p

namespace Heap

variable {h : Heap}

theorem Sound.newScope_none (hsound : h.Sound) : (h.newScope none).2.Sound where
  outer_lt := by
    intro s outer houter
    rw [outer?_newScope] at houter
    split at houter
    · cases houter
    · exact hsound.outer_lt s outer houter
  bound := by
    intro s name v hv
    rw [Binds, bindings_newScope] at hv
    exact (hsound.bound s name v hv).mono (Nat.le_refl h.values) (by simp [newScope])

end Heap

namespace Workspace

variable (p : Past) (w : Workspace)

theorem Sound.cleared {w : Workspace} (h : w.Sound) : w.cleared.Sound := by
  refine ⟨h.1.newScope_none, ?_⟩
  simp [Workspace.cleared, Heap.newScope]

theorem later_cleared : w.cleared.later p = (w.later p).cleared := by
  have hsize := w.heap.size_later p
  have hheap := w.heap.later_newScope p none
  simp only [cleared, later, Heap.newScope, Option.map_none] at hheap hsize ⊢
  rw [hheap, hsize]

/-- **A new global scope makes a workspace empty,** but for what was made before. -/
theorem cleared_eq_later : w.cleared = empty.later ⟨w.heap, w.nextNode⟩ := by
  simp [cleared, later, empty, Heap.newScope, Heap.empty, Heap.later, Scope.later, Bindings.later,
    Past.scope]

theorem bindings_later : (w.later p).bindings = w.bindings.later p := Heap.bindings_later ..

theorem parse_later (source : String) (level : Level) :
    (w.later p).parse source level = (w.parse source level).map (Parsed.later p.nodes) :=
  parseAt_later ..

/-- **Running an input later** comes to the same, later. -/
theorem run_later {w : Workspace} (h : w.Sound) (source : String) (level : Level) (limit : Nat)
    (tracing : Bool) :
    (w.later p).run source level limit tracing =
      ((w.run source level limit tracing).1.map (Run.later p),
        (w.run source level limit tracing).2.later p) := by
  rw [run, run, parse_later]
  cases w.parse source level with
  | error e => rfl
  | ok parsed =>
    have hsound : (Machine.new w.heap limit tracing).heap.Sound := ⟨h.1.outer_lt, h.1.bound⟩
    have heval := Machine.eval_later p hsound parsed.root h.2
    rw [Machine.later_new] at heval
    simp only [Except.map, later, Parsed.next_later,
      show (parsed.later p.nodes).root = parsed.root.later p.nodes from rfl, heval]
    rfl

end Workspace

end TraceTree

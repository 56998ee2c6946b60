import TraceTree.Eval.Machine
import TraceTree.Syntax.Reader

set_option autoImplicit false

/-! # Workspaces

A workspace holds what inputs that are run one after another share: the heap, the global scope in
which they are evaluated, and the numbers used for syntax nodes. Each run reads its input and
evaluates it with a new evaluator. -/

namespace TraceTree

/-- What is kept between runs. -/
structure Workspace where
  heap : Heap
  globals : ScopeId
  nextNode : NodeId

/-- A run of an input that could be read. -/
structure Run where
  parsed : Parsed
  outcome : Except Overflow (Option Value)
  trace : Trace

namespace Workspace

/-- A workspace with an empty global scope. -/
def empty : Workspace :=
  let (globals, heap) := Heap.empty.newScope none
  ⟨heap, globals, 0⟩

/-- The workspace with a new global scope. What was made before stays in the heap. -/
def cleared (w : Workspace) : Workspace :=
  let (globals, heap) := w.heap.newScope none
  { w with heap, globals }

/-- The bindings of the global scope. -/
def bindings (w : Workspace) : Bindings := w.heap.bindings w.globals

/-- Read an input. -/
def parse (w : Workspace) (source : String) (level : Level) : Except ParseError Parsed :=
  parseAt w.nextNode source level

/-- Read an input and evaluate it. An input that cannot be read changes nothing. -/
def run (w : Workspace) (source : String) (level : Level) (limit : Nat) (tracing : Bool) :
    Except ParseError Run × Workspace :=
  match w.parse source level with
  | .error e => (.error e, w)
  | .ok parsed =>
    let (outcome, m) := (Machine.new w.heap limit tracing).eval parsed.root w.globals
    (.ok ⟨parsed, outcome, m.trace⟩, { w with heap := m.heap, nextNode := parsed.next })

end Workspace

end TraceTree

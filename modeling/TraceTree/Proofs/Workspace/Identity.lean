import TraceTree.Proofs.Syntax.Numbering
import TraceTree.Proofs.Workspace.Runs

set_option autoImplicit false

/-! # Identities in a workspace

What a drawing presumes of nodes and values holds of all inputs that are run in a workspace one
after another: each node that was read has a number of its own and each value that was made a serial
number of its own, whichever input they come from (`Workspace.identified_after`). -/

namespace TraceTree

theorem Value.Registered.mono_nodes {nodes nodes' : List Node} {made : List Value} {v : Value}
    (h : nodes <+: nodes') (hv : v.Registered (fun id => nodes[id]?) made) :
    v.Registered (fun id => nodes'[id]?) made :=
  ⟨hv.layer, fun u hu id closure heq => Node.Numbered.mono h (hv.body u hu id closure heq)⟩

namespace Workspace

/-- All nodes read and all values made so far, by their numbers. -/
structure Identified (nodes : List Node) (made : List Value) (w : Workspace) : Prop where
  globals_lt : w.globals < w.heap.scopes.size
  next_eq : w.nextNode = nodes.length
  heap : w.heap.Registered (fun id => nodes[id]?) made

variable {nodes : List Node} {made : List Value} {w : Workspace}

theorem identified_empty : empty.Identified [] [] where
  globals_lt := Nat.zero_lt_one
  next_eq := rfl
  heap := ⟨rfl, fun s name v hv => absurd hv (not_binds_empty s name v)⟩

/-- What is read next has numbers of its own. -/
theorem Identified.parse (h : w.Identified nodes made) {source : String} {level : Level}
    {parsed : Parsed} (hparsed : w.parse source level = .ok parsed) :
    ∃ nodes', nodes <+: nodes' ∧ parsed.next = nodes'.length ∧ parsed.root.Numbered nodes' ∧
      w.heap.Registered (fun id => nodes'[id]?) made := by
  obtain ⟨nodes', hprefix, hnext, hroot⟩ := numbered_of_parseAt h.next_eq hparsed
  exact ⟨nodes', hprefix, hnext, hroot, h.heap.1,
    fun s name v hv => (h.heap.2 s name v hv).mono_nodes hprefix⟩

/-- **A run keeps the identities apart.** -/
theorem Identified.runInput (h : w.Identified nodes made) (input : Input) :
    ∃ nodes' made', (w.runInput input).2.Identified nodes' made' := by
  have hglobals := globals_lt_runInput h.globals_lt input
  cases hparsed : w.parse input.source input.level with
  | error e =>
    have hsame : (w.runInput input).2 = w := by rw [Workspace.runInput, run, hparsed]
    rw [hsame]
    exact ⟨nodes, made, h⟩
  | ok parsed =>
    have hafter : (w.runInput input).2 = { w with
        heap := ((Machine.new w.heap input.limit true).eval parsed.root w.globals).2.heap
        nextNode := parsed.next } := by
      rw [Workspace.runInput, run, hparsed]
    obtain ⟨nodes', _, hnext, hroot, hregistered⟩ := h.parse hparsed
    obtain ⟨c, hrec, hheap, _⟩ := Machine.eval_recorded w.heap input.limit parsed.root h.globals_lt
    obtain ⟨made', hidentified⟩ := hrec.identified hregistered hroot
    rw [hafter] at hglobals ⊢
    rw [hheap] at hglobals ⊢
    exact ⟨nodes', made', hglobals, hnext, hidentified.heap⟩

/-- **Whatever was run, nodes and values are what their numbers stand for.** -/
theorem identified_after (inputs : List Input) :
    ∃ nodes made, (empty.after inputs).Identified nodes made :=
  after_induction (P := fun w => ∃ nodes made, w.Identified nodes made)
    ⟨[], [], identified_empty⟩ (fun _ input ⟨_, _, h⟩ => h.runInput input) inputs

end Workspace

end TraceTree

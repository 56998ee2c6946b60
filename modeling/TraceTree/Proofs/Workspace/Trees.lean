import TraceTree.Proofs.Diagram.Wording
import TraceTree.Proofs.Syntax.Canonical
import TraceTree.Proofs.Syntax.Grammatical
import TraceTree.Proofs.Workspace.Runs

set_option autoImplicit false

/-! # Plain trees are well-formed

The grammar has no names with brackets in them. So no input brings such a name into a workspace, and
no evaluation makes one up: whatever was run before, the plain trees of an input and of its evaluation
are well-formed (`Workspace.wellBracketed_trees`). -/

namespace TraceTree

/-! ## What is read -/

theorem IsName.bare {name : String} (h : IsName name.toList) : IsBareName name := by
  intro c hc
  have hchar := h.chars c hc
  exact ⟨ne_of_isNameChar hchar rfl, ne_of_isNameChar hchar rfl, ne_of_isNameChar hchar rfl⟩

/-- **The names in a tree that keeps to the grammar are bare.** -/
theorem Node.Grammatical.bare {place : Place} {n : Node} (h : n.Grammatical place) :
    n.SpelledWith IsBareName := by
  have hleaf : ∀ {n : Node}, (∀ id name, n = .identifier id name → IsBareName name) →
      n.children = [] → n.SpelledWith IsBareName := by
    intro n hself hchildren
    refine .of_children hself fun part hpart => ?_
    rw [hchildren] at hpart
    exact absurd hpart List.not_mem_nil
  induction h with
  | name hname | identifier hname =>
    refine hleaf ?_ rfl
    rintro id name ⟨⟩
    exact hname.bare
  | boolean | integer _ => exact hleaf nofun rfl
  | prefixExpression _ ih | returnStatement _ ih | expressionStatement _ ih =>
    exact .of_children nofun (List.forall_mem_singleton.mpr ih)
  | infixExpression _ _ ihl ihr | ifExpression _ _ ihl ihr | letStatement _ _ ihl ihr =>
    exact .of_children nofun (List.forall_mem_cons.mpr ⟨ihl, List.forall_mem_singleton.mpr ihr⟩)
  | ifElseExpression _ _ _ ihc iht iha =>
    exact .of_children nofun (List.forall_mem_cons.mpr
      ⟨ihc, List.forall_mem_cons.mpr ⟨iht, List.forall_mem_singleton.mpr iha⟩⟩)
  | functionLiteral _ _ ihp ihb =>
    exact .of_children nofun
      (List.forall_mem_append.mpr ⟨ihp, List.forall_mem_singleton.mpr ihb⟩)
  | call _ _ ihf iha => exact .of_children nofun (List.forall_mem_cons.mpr ⟨ihf, iha⟩)
  | block _ ih => exact .of_children nofun ih

theorem Node.IsProgram.bare {n : Node} (h : n.IsProgram) : n.SpelledWith IsBareName := by
  obtain ⟨id, statements, rfl, hstatements⟩ := h
  exact .of_children nofun fun part hpart => (hstatements part hpart).bare

/-! ## What is evaluated -/

/-- **The tree of an evaluation is well-formed,** also of one that was given up or cut off, if no
other names than bare ones are in what is evaluated and in what the scopes bind. -/
theorem Machine.wellBracketed_eval {heap : Heap} (hheap : heap.SpelledWith IsBareName) {root : Node}
    (hroot : root.SpelledWith IsBareName) {scope : ScopeId} (hs : scope < heap.scopes.size)
    (limit : Nat) {trace : Trace} :
    let whole := ((Machine.new heap limit true).eval root scope).2.trace
    trace = whole ∨ (∃ step, trace = whole.upTo step) → trace.steps ≠ 0 →
      ∀ (later : Heap) (verbosity : Verbosity),
        Text.WellBracketed ((⟨later, trace, verbosity⟩ : Scene).evaluationTree .plain).toList := by
  intro whole htrace hsteps later verbosity
  -- the root was entered first
  obtain ⟨h, hnested⟩ := Machine.exists_wellNested hs htrace
  have hne : trace.events.toList ≠ [] := by simpa [Trace.steps] using hsteps
  have hentered := Trace.root?_of_wellNested hnested hne
  -- the values of the exits are among those of the whole trace
  obtain ⟨k, hk⟩ := Trace.exists_toList_events_take htrace
  have hvalues :=
    (Machine.spelledWith_eval (m := Machine.new heap limit true) rfl hheap hroot scope).2
  have hbare : (⟨later, trace, verbosity⟩ : Scene).Bare := by
    intro e he v hv
    rw [hk] at he
    exact hvalues e (List.mem_of_mem_take he) v hv
  rw [Scene.evaluationTree, Scene.diagram?, hentered]
  exact Scene.wellBracketed_drawNode hbare hroot

namespace Workspace

/-! ## What is run -/

/-- A run brings no other names into a workspace. -/
theorem bare_runInput {w : Workspace} (h : w.heap.SpelledWith IsBareName) (input : Input) :
    (w.runInput input).2.heap.SpelledWith IsBareName := by
  unfold runInput run
  split
  · exact h
  · next parsed hparsed =>
    exact (Machine.spelledWith_eval rfl h (grammatical_of_parseAt hparsed).bare w.globals).1

/-- **Whatever was run, the names in the values that are bound are bare.** -/
theorem bare_after (inputs : List Input) : (empty.after inputs).heap.SpelledWith IsBareName :=
  after_induction (P := fun w => w.heap.SpelledWith IsBareName)
    (fun s name v hv => absurd hv (not_binds_empty s name v))
    (fun _ input h => bare_runInput h input) inputs

/-- **Plain trees are well-formed.** After any runs, take any input that can be read, any verbosity,
and the trace of its evaluation, which may have been given up, or the trace up to a step. The plain
tree of the input is well-formed, and so is the one of the trace, whatever the scopes bind when it is
drawn, unless the trace is empty. -/
theorem wellBracketed_trees (earlier : List Input) (input : Input) {run : Run}
    (h : ((empty.after earlier).runInput input).1 = .ok run) (verbosity : Verbosity) :
    Text.WellBracketed (run.parsed.root.syntaxTree verbosity .plain).toList ∧
      ∀ trace, trace = run.trace ∨ (∃ step, trace = run.trace.upTo step) → trace.steps ≠ 0 →
        ∀ later : Heap,
          Text.WellBracketed ((⟨later, trace, verbosity⟩ : Scene).evaluationTree .plain).toList := by
  obtain ⟨hread, -, hrun⟩ := parse_of_runInput h
  have hroot := (grammatical_of_parseAt hread).bare
  have hstill : (Scene.still verbosity).Bare := fun _ he => absurd he List.not_mem_nil
  refine ⟨Scene.wellBracketed_drawNode hstill hroot, ?_⟩
  rw [hrun]
  exact fun trace htrace hsteps later => Machine.wellBracketed_eval (bare_after earlier) hroot
    (sound_after earlier).2 input.limit htrace hsteps later verbosity

/-- A function from an earlier run is called, and the limit does not allow to evaluate its body to the
end. -/
theorem wellBracketed_trees_givenUp :
    let earlier : List Input := [⟨"let f = fn(x) { if (x) { g } };", .program, 50⟩]
    let input : Input := ⟨"f(true)", .program, 6⟩
    ∃ run, ((empty.after earlier).runInput input).1 = .ok run ∧
      run.outcome = .error ⟨6, 6⟩ ∧ run.trace.steps = 10 ∧
      Text.WellBracketed (run.parsed.root.syntaxTree ⟨2⟩ .plain).toList ∧
      Text.WellBracketed
        ((⟨(empty.after earlier).heap, run.trace, ⟨2⟩⟩ : Scene).evaluationTree .plain).toList := by
  intro earlier input
  have hend : ((empty.after earlier).runInput input).1.map (fun run =>
      (run.outcome, run.trace.steps)) = .ok (.error ⟨6, 6⟩, 10) := by cbv
  cases h : ((empty.after earlier).runInput input).1 with
  | error e =>
    rw [h] at hend
    cases hend
  | ok run =>
    rw [h] at hend
    obtain ⟨houtcome, hsteps⟩ := Prod.mk.inj (Except.ok.inj hend)
    obtain ⟨hread, htraces⟩ := wellBracketed_trees earlier input h ⟨2⟩
    have hne : run.trace.steps ≠ 0 := by rw [hsteps]; decide
    exact ⟨run, rfl, houtcome, hsteps, hread, htraces run.trace (Or.inl rfl) hne _⟩

end Workspace

end TraceTree

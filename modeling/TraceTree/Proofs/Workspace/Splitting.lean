import TraceTree.Proofs.Eval.Splitting
import TraceTree.Proofs.Workspace.Runs

set_option autoImplicit false

/-! # Programs split across runs

A program may be run at once, or its first statements in one run and the others in a later one. A run
has an evaluator of its own, whose truth values and null are not those of the run before, and the
program can bind them, pass them to functions and compare them. If the first statements all complete,
nothing of this shows (`Machine.eval_split`). -/

namespace TraceTree

/-- **Whatever was run, only the constants of evaluators have the identities of constants.** -/
theorem Workspace.genuine_after (inputs : List Input) : (empty.after inputs).heap.Genuine :=
  (upholds_inputs Value.kept_genuine (fun s name v hv => absurd hv (not_binds_empty s name v))
    inputs).2.1

namespace Machine

/-- **Splitting a program changes nothing that is shown.** Where a program begins with statements that
complete, evaluating it in one run and evaluating it in two, the second run with a new evaluator on
the heap that the first one left, come to the same: to the same overflow or to values of the same
type and text, with the same names bound in every scope to values of the same types and texts. -/
theorem eval_split {heap : Heap} (hheap : heap.Genuine) (limit : Nat) (tracing : Bool)
    (scope : ScopeId) (first : List Node) {rest : List Node} (hrest : rest ≠ []) (id id₁ id₂ : NodeId)
    (hfirst : ((new heap limit tracing).enter (.program id₁ first) scope).completes scope first =
      true) :
    let whole := (new heap limit tracing).eval (.program id (first ++ rest)) scope
    let before := (new heap limit tracing).eval (.program id₁ first) scope
    let after := (new before.2.heap limit tracing).eval (.program id₂ rest) scope
    whole.1.map (·.map Value.shown) = after.1.map (·.map Value.shown) ∧
      ∀ s, (whole.2.heap.bindings s).shown = (after.2.heap.bindings s).shown := by
  intro whole before after
  obtain ⟨hwhole, _⟩ := eval_unowned (m := new heap limit tracing) hheap
    (.program id (first ++ rest)) scope
  obtain ⟨hbefore, hleft⟩ := eval_unowned (m := new heap limit tracing) hheap
    (.program id₁ first) scope
  obtain ⟨hafter, _⟩ := eval_unowned (m := new before.2.heap limit tracing) hleft
    (.program id₂ rest) scope
  -- without owners the second evaluator is the first one, after the first run
  have hsame : before.2.unowned = (new before.2.heap limit tracing).unowned := by
    have hdepth : before.2.depth = 0 := depth_eval _ _ _
    have hlimit : before.2.limit = limit := limit_eval _ _ _
    rw [unowned, hdepth, hlimit]
    rfl
  have hcompletes : ((new heap limit tracing).unowned.enter (.program id₁ first) scope).completes
      scope first = true := by
    rw [← hfirst]
    exact completes_unowned (m := (new heap limit tracing).enter (.program id₁ first) scope) hheap
      scope first
  have happend := eval_append (m := (new heap limit tracing).unowned) rfl hrest id id₁ id₂ hcompletes
  rw [hwhole, hbefore, hsame, hafter] at happend
  obtain ⟨hvalue, hmachine⟩ := Prod.mk.inj happend
  refine ⟨?_, fun s => ?_⟩
  · have hshown : ∀ outcome : Except Overflow (Option Value),
        outcome.map (·.map Value.shown) =
          (outcome.map (·.map Value.unowned)).map (·.map Value.shown) := by
      rintro (o | _ | value)
      · rfl
      · rfl
      · exact congrArg (fun shown => Except.ok (some shown)) value.shown_unowned.symm
    rw [hshown whole.1, hshown after.1]
    exact congrArg (·.map (·.map Value.shown)) hvalue
  · have hbindings : (whole.2.heap.bindings s).unowned = (after.2.heap.bindings s).unowned := by
      rw [← Heap.bindings_unowned, ← Heap.bindings_unowned]
      exact congrArg (fun m : Machine => m.heap.bindings s) hmachine
    rw [← Bindings.shown_unowned, hbindings, Bindings.shown_unowned]

/-- A heap in which `t` is bound to the `true` of an evaluator that is gone. -/
def earlierTruth : Heap := ⟨#[⟨[("t", constantOf 0 (.boolean true))], none⟩], 0, 1⟩

/-- The node of `let f = fn(x) { x == true };`. -/
def truthTest : Node :=
  .letStatement 0 (.identifier 1 "f") (.functionLiteral 2 [.identifier 3 "x"] (.block 4
    [.expressionStatement 5 (.infixExpression 6 .eq (.identifier 7 "x") (.boolean 8 true))]))

/-- The node of `f(t)`. -/
def truthTestCall : Node :=
  .expressionStatement 9 (.call 10 (.identifier 11 "f") [.identifier 12 "t"])

/-- A function that compares a value of an earlier evaluator with the `true` of the present one. Made
in the run of its call or in one before it, it comes to `true`, though not to the same one. -/
theorem eval_split_truthTest :
    let whole := (new earlierTruth 9 true).eval (.program 13 ([truthTest] ++ [truthTestCall])) 0
    let before := (new earlierTruth 9 true).eval (.program 14 [truthTest]) 0
    let after := (new before.2.heap 9 true).eval (.program 15 [truthTestCall]) 0
    earlierTruth.Genuine ∧ [truthTestCall] ≠ [] ∧
      ((new earlierTruth 9 true).enter (.program 14 [truthTest]) 0).completes 0 [truthTest] = true ∧
      whole.1 = .ok (some (constantOf 1 (.boolean true))) ∧
      after.1 = .ok (some (constantOf 2 (.boolean true))) ∧
      whole.1.map (·.map Value.shown) = after.1.map (·.map Value.shown) ∧
      ∀ s, (whole.2.heap.bindings s).shown = (after.2.heap.bindings s).shown := by
  have hrun : (Workspace.empty.after [⟨"let t = true;", .program, 9⟩]).heap = earlierTruth := by cbv
  have hheap : earlierTruth.Genuine := hrun ▸ Workspace.genuine_after _
  have hrest : [truthTestCall] ≠ [] := List.cons_ne_nil _ _
  have hfirst : ((new earlierTruth 9 true).enter (.program 14 [truthTest]) 0).completes 0
      [truthTest] = true := by cbv
  have hwhole : ((new earlierTruth 9 true).eval (.program 13 ([truthTest] ++ [truthTestCall])) 0).1 =
      .ok (some (constantOf 1 (.boolean true))) := by cbv
  have hafter : ((new ((new earlierTruth 9 true).eval (.program 14 [truthTest]) 0).2.heap 9 true).eval
      (.program 15 [truthTestCall]) 0).1 = .ok (some (constantOf 2 (.boolean true))) := by cbv
  exact ⟨hheap, hrest, hfirst, hwhole, hafter,
    eval_split hheap 9 true 0 [truthTest] hrest 13 14 15 hfirst⟩

end Machine

end TraceTree

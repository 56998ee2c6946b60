import TraceTree.Proofs.Eval.Ownership

set_option autoImplicit false

/-! # The two parts of a program

A program whose first statements all complete is evaluated like two programs, one after the other, as
long as one evaluator does it (`Machine.eval_append`): of the first statements nothing is left but the
heap, since their last value is replaced by that of the next statement. -/

namespace TraceTree

namespace Machine

/-- Whether an evaluator gets through statements: each is evaluated, and none of them returns or
fails. -/
def completes (scope : ScopeId) : Machine → List Node → Bool
  | _, [] => true
  | m, statement :: more =>
    match m.eval statement scope with
    | (.ok value, m') => !value.any Value.endsSequence && completes scope m' more
    | (.error _, _) => false

theorem enter_of_not_tracing (m : Machine) (htracing : m.tracing = false) (scope : ScopeId)
    (node : Node) : m.enter node scope = { m with depth := m.depth + 1 } := by
  simp [enter, htracing]

section

variable {m : Machine} {scope : ScopeId} {first rest : List Node}

theorem completes_cons {statement : Node} {more : List Node}
    (h : m.completes scope (statement :: more) = true) :
    ∃ value m', m.eval statement scope = (.ok value, m') ∧ value.any Value.endsSequence = false ∧
      m'.completes scope more = true := by
  rw [completes] at h
  split at h
  · next value m' heval =>
    rw [Bool.and_eq_true, Bool.not_eq_true'] at h
    exact ⟨value, m', heval, h.1, h.2⟩
  · cases h

theorem sameSetup_of_eval {node : Node} {value : Option Value} {m' : Machine}
    (h : m.eval node scope = (.ok value, m')) : m.SameSetup m' := by
  have hsteps := m.eval_steps node scope
  rw [h] at hsteps
  exact hsteps.2

/-- Statements that complete are evaluated before those behind them, and leave no more than the value
of the last of them and the evaluator. -/
theorem evalStatements_append {remaining : Nat} (hremaining : m.limit - m.depth = remaining)
    (h : m.completes scope first = true) (before : Option Value) :
    ∃ last m', m.SameSetup m' ∧ ∀ rest,
      evalStatements (evalWithin remaining · scope) before (first ++ rest) m =
        evalStatements (evalWithin remaining · scope) last rest m' := by
  induction first generalizing m before with
  | nil => exact ⟨before, m, ⟨rfl, rfl, rfl, rfl⟩, fun _ => rfl⟩
  | cons statement more ih =>
    obtain ⟨value, m₁, heval, hends, hmore⟩ := completes_cons h
    have hsetup : m.SameSetup m₁ := sameSetup_of_eval heval
    rw [Machine.eval, hremaining] at heval
    obtain ⟨last, m', hsetup', happend⟩ :=
      ih (m := m₁) (by rw [hsetup.limit, hsetup.depth, hremaining]) hmore value
    refine ⟨last, m', hsetup.trans hsetup', fun rest => ?_⟩
    rw [List.cons_append, evalStatements, Eval.bind_apply, heval]
    simp only [hends, Bool.false_eq_true, if_false]
    exact happend rest

/-- The value before the first statement does not matter. -/
theorem evalStatements_of_ne_nil (eval : Node → Eval (Option Value)) (hrest : rest ≠ [])
    (before before' : Option Value) :
    evalStatements eval before rest = evalStatements eval before' rest := by
  cases rest with
  | nil => exact absurd rfl hrest
  | cons statement more => rfl

/-- A program takes the wrapper off what its statements come to. -/
theorem evaluate_program (eval : Node → ScopeId → Eval (Option Value)) (id : NodeId)
    (statements : List Node) (m : Machine) :
    (Node.program id statements).evaluate eval scope m =
      ((evalStatements (eval · scope) none statements m).1.map (·.map Value.unwrapped),
        (evalStatements (eval · scope) none statements m).2) := by
  rw [Node.evaluate, Eval.bind_apply]
  rcases evalStatements (eval · scope) none statements m with ⟨o | value, m'⟩ <;> rfl

/-- The evaluation of a program, where the limit allows it and nothing is recorded: what its statements
come to one level deeper. -/
theorem eval_program {remaining : Nat} (htracing : m.tracing = false)
    (hremaining : m.limit - m.depth = remaining + 1) (id : NodeId) {statements : List Node}
    {ended : Except Overflow (Option Value) × Machine}
    (hended : evalStatements (evalWithin remaining · scope) none statements
      { m with depth := m.depth + 1 } = ended) :
    m.eval (.program id statements) scope =
      (ended.1.map (·.map Value.unwrapped), { ended.2 with depth := m.depth }) := by
  have henter := m.enter_of_not_tracing htracing scope (.program id statements)
  have hdepth := m.depth_eval (.program id statements) scope
  obtain ⟨o | value, m'⟩ := ended
  · have heval : m.eval (.program id statements) scope =
        (.error o, { m' with depth := m'.depth - 1 }) := by
      rw [Machine.eval, hremaining, evalWithin_succ_apply, henter, evaluate_program, hended]
      rfl
    rw [heval] at hdepth ⊢
    exact congrArg (fun depth => (Except.error o, { m' with depth })) hdepth
  · have heval : m.eval (.program id statements) scope =
        (.ok (value.map Value.unwrapped),
          m'.leave (.program id statements) scope (value.map Value.unwrapped)) := by
      rw [Machine.eval, hremaining, evalWithin_succ_apply, henter, evaluate_program, hended]
      rfl
    have htracing' : m'.tracing = false := (sameSetup_of_eval heval).tracing.trans htracing
    simp only [leave, htracing', Bool.false_eq_true, if_false] at heval
    rw [heval] at hdepth ⊢
    rw [← htracing']
    exact congrArg (fun depth => (Except.ok (value.map Value.unwrapped), { m' with depth })) hdepth

/-- **One evaluator gets through a program as through its two parts,** if the statements of the first
part complete. -/
theorem eval_append (htracing : m.tracing = false) (hrest : rest ≠ []) (id id₁ id₂ : NodeId)
    (h : (m.enter (.program id₁ first) scope).completes scope first = true) :
    m.eval (.program id (first ++ rest)) scope =
      (m.eval (.program id₁ first) scope).2.eval (.program id₂ rest) scope := by
  cases hremaining : m.limit - m.depth with
  | zero =>
    -- neither program is entered
    have hgiven : ∀ node, m.eval node scope = (.error ⟨m.depth, m.limit⟩, m) := by
      intro node
      rw [Machine.eval, hremaining]
      rfl
    rw [hgiven, hgiven, hgiven]
  | succ remaining =>
    rw [m.enter_of_not_tracing htracing] at h
    obtain ⟨last, m', hsetup, happend⟩ := evalStatements_append
      (show m.limit - (m.depth + 1) = remaining by omega) h none
    have hfirst := happend []
    rw [List.append_nil] at hfirst
    have hbefore : (m.eval (.program id₁ first) scope).2 = { m' with depth := m.depth } := by
      rw [eval_program htracing hremaining id₁ hfirst]
      rfl
    -- the second program enters the evaluator that the first statements left
    have hsecond : evalStatements (evalWithin remaining · scope) none rest
        { m' with depth := m.depth + 1 } =
          evalStatements (evalWithin remaining · scope) last rest m' := by
      have hdepth : m'.depth = m.depth + 1 := hsetup.depth
      rw [← hdepth]
      exact congrFun (evalStatements_of_ne_nil _ hrest none last) m'
    rw [hbefore, eval_program htracing hremaining id (happend rest),
      eval_program (m := { m' with depth := m.depth }) (hsetup.tracing.trans htracing)
        (show m'.limit - m.depth = remaining + 1 by rw [hsetup.limit, hremaining]) id₂ hsecond]

end

/-- Statements complete with one owner of the constants as with another. -/
theorem completes_unowned {m : Machine} (hheap : m.heap.Genuine) (scope : ScopeId)
    (statements : List Node) :
    m.unowned.completes scope statements = m.completes scope statements := by
  induction statements generalizing m with
  | nil => rfl
  | cons statement more ih =>
    obtain ⟨heval, hheap'⟩ := eval_unowned hheap statement scope
    rw [completes, completes, heval]
    rcases hvalue : m.eval statement scope with ⟨o | value, m'⟩
    · rfl
    · rw [hvalue] at hheap'
      show (!(value.map Value.unowned).any Value.endsSequence && _) = _
      rw [Value.any_endsSequence_unowned, ih hheap']

end Machine

end TraceTree

import Mathlib
import TraceTree.Proofs.Diagram.Divergence
import TraceTree.Proofs.Trace.Moment

set_option autoImplicit false

/-! # Trees of the beginning of a trace

The beginning of a trace up to a step is the trace as it was right after this step, but it is drawn
with the bindings of the heap as it is. So its tree is the one that could have been drawn then, except
that a value may have come to be used in several places, or may be no longer: at the verbosity that
shares values it is numbered accordingly. This is all that later bindings can do, and they do it if
the value is shown (`Recording.upTo_shows`). -/

namespace TraceTree

theorem Markup.tree_inj {m : Markup} {a b : String} : m.tree a = m.tree b ↔ a = b := by
  cases m with
  | plain => simp [tree, String.append_left_inj]
  | qtree => simp [tree, String.append_left_inj, String.append_right_inj]

namespace Scene

variable {s : Scene} {heap : Heap} {v : Value}

/-- The values that the tree of an evaluation shows. -/
def shownValues (s : Scene) : List Value :=
  match s.diagram? with
  | some d => d.values
  | none => []

/-- The whole drawing is that of the root, inside no body. -/
theorem drawNode_root (s : Scene) (root : Node) :
    drawNode s s.bodies root [] = s.draw (.node [] root) [] := by
  have hbodies : (Job.node [] root).bodies s = s.bodies :=
    List.filter_eq_self.mpr fun b _ => decide_eq_true List.not_mem_nil
  rw [draw, hbodies]

/-- Where no value is shared, all heaps agree. -/
theorem agrees_of_not_sharesValues (h : s.verbosity.sharesValues = false) (heap : Heap) (v : Value) :
    s.Agrees heap v := by
  simp [Agrees, isShared, onHeap, h]

/-- **Two heaps make the same tree of one trace if and only if they agree about the values in it.** -/
theorem evaluationTree_onHeap (s : Scene) (heap : Heap) (m : Markup) :
    (s.onHeap heap).evaluationTree m = s.evaluationTree m ↔ ∀ v ∈ s.shownValues, s.Agrees heap v := by
  rw [evaluationTree, evaluationTree, shownValues, diagram?, diagram?]
  have htrace : (s.onHeap heap).trace.root? = s.trace.root? := rfl
  rw [htrace]
  cases s.trace.root? with
  | none => simp
  | some root =>
    simp only [Option.map_some, drawNode_root, Diagram.write, Markup.tree_inj]
    -- both trees are texts of drawings in step: the same, or never the same again
    have hstep := s.lockstep_draw heap (.node [] root) []
    rw [Lockstep₁, Lockstep] at hstep
    simp only [Diagram.valuesAll, List.append_nil, Diagram.linesAll, Diagram.onNewLines_lines] at hstep
    rcases hstep with ⟨heq, hvalues⟩ | ⟨⟨v, hv, hne⟩, hdiverge⟩
    · have hdraw := List.singleton_inj.mp (congrArg Prod.fst heq)
      exact ⟨fun _ => hvalues, fun _ => by rw [hdraw]⟩
    · refine ⟨fun htext => absurd ?_ (hdiverge m 0).ne, fun hall => absurd (hall v hv) hne⟩
      rw [Diagram.textAt, Diagram.textAt, htext]

end Scene

namespace Recording

/-- **`upTo` goes back to the moment right after a step,** in everything that is recorded. Whatever has
happened while and after the trace was recorded, in an evaluation or otherwise, the beginning of the
trace up to a step has the events, the scopes and the steps of their first occurrence that the trace
had then. Its tree, drawn now, has the text of the tree drawn then if and only if for each value shown
in it the answer is the same now and then whether the value is to be numbered; where values are not
shared it always has. -/
theorem upTo_shows :
    (∀ (heap : Heap) (happenings : List Happening) (n : Nat),
      n < ((start heap).after happenings).trace.steps →
        ∃ before last later, happenings = before ++ last :: later ∧
          ((start heap).after before).trace.steps = n ∧
          let moment := (start heap).after (before ++ [last])
          let now := (start heap).after happenings
          moment.trace.steps = n + 1 ∧ now.trace.upTo n = moment.trace ∧
          ∀ (verbosity : Verbosity) (m : Markup),
            let sceneThen : Scene := ⟨moment.heap, moment.trace, verbosity⟩
            let sceneNow : Scene := ⟨now.heap, now.trace.upTo n, verbosity⟩
            (sceneNow.evaluationTree m = sceneThen.evaluationTree m ↔
              ∀ v ∈ sceneThen.shownValues, sceneNow.isShared v = sceneThen.isShared v) ∧
            (verbosity.sharesValues = false →
              sceneNow.evaluationTree m = sceneThen.evaluationTree m)) ∧
    ∀ (heap : Heap) (limit : Nat) (root : Node) (scope : ScopeId),
      ∃ happenings, (start (Machine.new heap limit true).heap).after happenings =
        ((Machine.new heap limit true).eval root scope).2.recording := by
  refine ⟨fun heap happenings n hn => ?_, Machine.eval_recording⟩
  obtain ⟨before, last, later, rfl, hbefore, hmoment⟩ := exists_moment (Nat.zero_le n) hn
  have hsplit : before ++ last :: later = (before ++ [last]) ++ later := by simp
  have hupTo := upTo_after heap (before ++ [last]) later hmoment
  rw [← hsplit] at hupTo
  refine ⟨before, last, later, rfl, hbefore, hmoment, hupTo, fun verbosity m => ?_⟩
  have htree := Scene.evaluationTree_onHeap
    ⟨((start heap).after (before ++ [last])).heap, ((start heap).after (before ++ [last])).trace,
      verbosity⟩ ((start heap).after (before ++ last :: later)).heap m
  simp only [hupTo]
  refine ⟨htree.trans (forall₂_congr fun v _ => eq_comm), fun hverbosity => htree.mpr fun v _ => ?_⟩
  exact Scene.agrees_of_not_sharesValues hverbosity _ v

/-- A literal is evaluated, and its value is bound to a name. -/
def boundLater : List Happening :=
  [.makeScope none, .enter (.integer 0 7) 0, .makeValue,
    .exit (.integer 0 7) 0 (some (.integer (.made 0) 7)), .bind 0 "a" (.integer (.made 0) 7)]

/-- Right after its exit the value is used once, and once it is bound it is used twice. -/
theorem upTo_boundLater_differs :
    let moment := (start .empty).after (boundLater.take 4)
    let now := (start .empty).after boundLater
    moment.trace.steps = 2 ∧ now.trace.upTo 1 = moment.trace ∧
      (Scene.mk now.heap (now.trace.upTo 1) ⟨2⟩).evaluationTree .plain ≠
        (Scene.mk moment.heap moment.trace ⟨2⟩).evaluationTree .plain := by
  intro moment now
  have hupTo : now.trace.upTo 1 = moment.trace := by cbv
  have hshown : (Scene.mk moment.heap moment.trace ⟨2⟩).shownValues =
      [.integer (.made 0) 7] := by cbv
  have hthen : (Scene.mk moment.heap moment.trace ⟨2⟩).isShared (.integer (.made 0) 7) = false := by
    cbv
  have hnow : (Scene.mk now.heap moment.trace ⟨2⟩).isShared (.integer (.made 0) 7) = true := by cbv
  refine ⟨by cbv, hupTo, ?_⟩
  rw [hupTo]
  refine mt (Scene.evaluationTree_onHeap ⟨moment.heap, moment.trace, ⟨2⟩⟩ now.heap .plain).mp ?_
  intro hall
  have hagrees := hall _ (hshown ▸ List.mem_singleton_self _)
  rw [Scene.Agrees, hthen] at hagrees
  exact Bool.false_ne_true (hagrees.trans hnow)

/-- The moment when the literal has been left, before its value is bound. -/
theorem upTo_shows_boundLater :
    1 < ((start .empty).after boundLater).trace.steps ∧
      ∃ before last later, boundLater = before ++ last :: later ∧
        ((start .empty).after before).trace.steps = 1 ∧
        ((start .empty).after boundLater).trace.upTo 1 =
          ((start .empty).after (before ++ [last])).trace := by
  have hlt : 1 < ((start .empty).after boundLater).trace.steps := by cbv
  obtain ⟨before, last, later, hsplit, hbefore, _, hupTo, _⟩ := upTo_shows.1 .empty boundLater 1 hlt
  exact ⟨hlt, before, last, later, hsplit, hbefore, hupTo⟩

end Recording

end TraceTree

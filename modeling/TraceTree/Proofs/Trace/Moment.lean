import Mathlib
import TraceTree.Proofs.Trace.Limit

set_option autoImplicit false

/-! # Moments of a recording

While a trace is recorded, scopes are made and names are bound: by an evaluation, or by anybody who
holds the scopes. A `Recording` is the heap and the trace at one moment, a `Happening` takes it on to
the next one, and an evaluation is such a list of happenings (`Machine.eval_recording`).

A trace that is recorded further only gets longer, and the scopes that it takes note of are first seen
later than those before (`Trace.Continues`). So the beginning of the trace up to a step is the trace
as it was right after this step (`Trace.Continues.upTo_eq`): its events, its scopes, and where they
were first seen. What the scopes bind is not part of the trace. -/

namespace TraceTree

/-! ## Recordings -/

/-- What can happen while a trace is recorded. -/
inductive Happening where
  | enter (node : Node) (scope : ScopeId)
  | exit (node : Node) (scope : ScopeId) (value : Option Value)
  | bind (scope : ScopeId) (name : String) (value : Value)
  | makeScope (outer : Option ScopeId)
  | makeValue

/-- A heap, and a trace that is being recorded. -/
structure Recording where
  heap : Heap
  trace : Trace

namespace Recording

/-- A recording that has not begun. -/
def start (heap : Heap) : Recording := ⟨heap, .empty⟩

/-- One thing happens. -/
def note (r : Recording) : Happening → Recording
  | .enter node scope => { r with trace := r.trace.enter node scope }
  | .exit node scope value => { r with trace := r.trace.exit node scope value }
  | .bind scope name value => { r with heap := r.heap.set scope name value }
  | .makeScope outer => { r with heap := (r.heap.newScope outer).2 }
  | .makeValue => { r with heap := r.heap.newValue.2 }

/-- Things happen one after another. -/
def after (r : Recording) (happenings : List Happening) : Recording := happenings.foldl note r

@[simp] theorem after_nil (r : Recording) : r.after [] = r := rfl

@[simp] theorem after_cons (r : Recording) (h : Happening) (more : List Happening) :
    r.after (h :: more) = (r.note h).after more := rfl

theorem after_append (r : Recording) (happenings more : List Happening) :
    r.after (happenings ++ more) = (r.after happenings).after more := by
  simp [after]

end Recording

/-! ## Traces that are continued -/

namespace Trace

variable {t t₁ t₂ : Trace} {n : Nat}

@[simp] theorem steps_observe (t : Trace) (scope : ScopeId) : (t.observe scope).steps = t.steps := by
  simp [steps]

@[simp] theorem steps_enter (t : Trace) (node : Node) (scope : ScopeId) :
    (t.enter node scope).steps = t.steps + 1 := by
  simp [enter, steps]

@[simp] theorem steps_exit (t : Trace) (node : Node) (scope : ScopeId) (value : Option Value) :
    (t.exit node scope value).steps = t.steps + 1 := by
  simp [exit, steps]

/-- Each scope of a trace was first seen at one of its steps. -/
structure Timely (t : Trace) : Prop where
  size : t.firstSeen.size = t.scopes.size
  lt : ∀ k ∈ t.firstSeen.toList, k < t.steps

/-- A later state of a trace: what is new was first seen later. -/
structure Continues (t t' : Trace) : Prop extends Extends t t' where
  seenLater : ∀ k ∈ t'.firstSeen.toList.drop t.firstSeen.size, t.steps ≤ k

theorem Continues.steps_le (h : t.Continues t₁) : t.steps ≤ t₁.steps := h.events.length_le

theorem Continues.refl (t : Trace) : t.Continues t := by
  refine ⟨.refl t, fun k hk => ?_⟩
  rw [← Array.length_toList, List.drop_length] at hk
  exact absurd hk List.not_mem_nil

theorem Continues.trans (h : t.Continues t₁) (h' : t₁.Continues t₂) : t.Continues t₂ := by
  refine ⟨h.toExtends.trans h'.toExtends, fun k hk => ?_⟩
  obtain ⟨more, hmore⟩ := h'.firstSeen
  have hsize : t.firstSeen.size ≤ t₁.firstSeen.toList.length := h.firstSeen.length_le
  rw [← hmore, List.drop_append_of_le_length hsize] at hk
  rcases List.mem_append.mp hk with hk | hk
  · exact h.seenLater k hk
  · exact h.steps_le.trans (h'.seenLater k (by simpa [← hmore] using hk))

theorem continues_observe (t : Trace) (scope : ScopeId) : t.Continues (t.observe scope) := by
  unfold observe
  split
  · exact .refl t
  · refine ⟨⟨List.prefix_rfl, by simp, by simp⟩, fun k hk => ?_⟩
    rw [← Array.length_toList, Array.toList_push, List.drop_left] at hk
    exact Nat.le_of_eq (List.mem_singleton.mp hk).symm

theorem continues_enter (t : Trace) (node : Node) (scope : ScopeId) :
    t.Continues (t.enter node scope) :=
  ⟨t.extends_enter node scope, by simpa [enter] using (t.continues_observe scope).seenLater⟩

theorem continues_exit (t : Trace) (node : Node) (scope : ScopeId) (value : Option Value) :
    t.Continues (t.exit node scope value) :=
  ⟨t.extends_exit node scope value, by simpa [exit] using (t.continues_observe scope).seenLater⟩

theorem timely_empty : empty.Timely := ⟨rfl, by simp [empty]⟩

/-- A scope is taken note of at the step that is recorded next. -/
theorem Timely.record (h : t.Timely) (scope : ScopeId) (e : Event) :
    Timely { t.observe scope with events := t.events.push e } := by
  unfold observe
  split
  · refine ⟨h.size, fun k hk => ?_⟩
    have hlt := h.lt k hk
    simp only [steps, Array.size_push] at hlt ⊢
    omega
  · refine ⟨by simp [h.size], fun k hk => ?_⟩
    simp only [Array.toList_push, List.mem_append, List.mem_singleton] at hk
    simp only [steps, Array.size_push]
    rcases hk with hk | rfl
    · exact Nat.lt_succ_of_lt (h.lt k hk)
    · exact Nat.lt_succ_self _

theorem Timely.enter (h : t.Timely) (node : Node) (scope : ScopeId) :
    (t.enter node scope).Timely := by
  simpa [Trace.enter] using h.record scope (.entry t.steps node scope)

theorem Timely.exit (h : t.Timely) (node : Node) (scope : ScopeId) (value : Option Value) :
    (t.exit node scope value).Timely := by
  simpa [Trace.exit] using h.record scope (.exit t.steps node scope value)

/-- **The beginning of a trace is the trace as it was.** -/
theorem Continues.upTo_eq (h : t.Continues t₁) (ht : t.Timely)
    (hstop : min (n + 1) t₁.steps = t.steps) : t₁.upTo n = t := by
  obtain ⟨later, hlater⟩ := h.firstSeen
  -- the scopes that were seen since are exactly those whose first step is not kept
  have hge : ∀ k ∈ later, t.steps ≤ k := by simpa [← hlater] using h.seenLater
  have hkept : (t₁.firstSeen.toList.takeWhile (· < t.steps)) = t.firstSeen.toList := by
    rw [← hlater, List.takeWhile_append_of_pos fun k hk => decide_eq_true (ht.lt k hk),
      List.takeWhile_eq_nil_iff.mpr, List.append_nil]
    intro hpos
    simpa using hge _ (List.getElem_mem hpos)
  have hsize : t.firstSeen.toList.length = t.scopes.toList.length := by simpa using ht.size
  have hevents : t₁.events.take t.steps = t.events := by
    apply Array.ext'
    simpa [steps] using (List.prefix_iff_eq_take.mp h.events).symm
  have hscopes : t₁.scopes.take t.firstSeen.toList.length = t.scopes := by
    apply Array.ext'
    simpa [hsize] using (List.prefix_iff_eq_take.mp h.scopes).symm
  have hfirstSeen : t₁.firstSeen.take t.firstSeen.toList.length = t.firstSeen := by
    apply Array.ext'
    simp [← hlater]
  simp only [upTo, hstop, hkept, hevents, hscopes, hfirstSeen]

end Trace

namespace Recording

variable {r : Recording} {happenings : List Happening} {n : Nat}

theorem continues_note (r : Recording) (h : Happening) : r.trace.Continues (r.note h).trace := by
  cases h with
  | enter node scope => exact r.trace.continues_enter node scope
  | exit node scope value => exact r.trace.continues_exit node scope value
  | bind | makeScope | makeValue => exact .refl r.trace

theorem timely_note (h : r.trace.Timely) (happening : Happening) :
    (r.note happening).trace.Timely := by
  cases happening with
  | enter node scope => exact h.enter node scope
  | exit node scope value => exact h.exit node scope value
  | bind | makeScope | makeValue => exact h

theorem continues_after (r : Recording) (happenings : List Happening) :
    r.trace.Continues (r.after happenings).trace := by
  induction happenings generalizing r with
  | nil => exact .refl r.trace
  | cons h more ih => exact (r.continues_note h).trans (ih (r.note h))

theorem timely_after (h : r.trace.Timely) (happenings : List Happening) :
    (r.after happenings).trace.Timely := by
  induction happenings generalizing r with
  | nil => exact h
  | cons happening more ih => exact ih (timely_note h happening)

/-- **`upTo` goes back to the moment** when a step had been recorded, whatever has happened since. -/
theorem upTo_after (heap : Heap) (before later : List Happening)
    (hn : ((start heap).after before).trace.steps = n + 1) :
    ((start heap).after (before ++ later)).trace.upTo n = ((start heap).after before).trace := by
  rw [after_append]
  have hcontinues := continues_after ((start heap).after before) later
  refine hcontinues.upTo_eq (timely_after Trace.timely_empty before) ?_
  rw [hn, Nat.min_eq_left (hn ▸ hcontinues.steps_le)]

/-- Something that happens records one step at most. -/
theorem steps_note_le (r : Recording) (h : Happening) :
    (r.note h).trace.steps ≤ r.trace.steps + 1 := by
  cases h <;> simp [note]

/-- Every step was recorded at some moment. -/
theorem exists_moment (hr : r.trace.steps ≤ n) (hn : n < (r.after happenings).trace.steps) :
    ∃ before last later, happenings = before ++ last :: later ∧
      (r.after before).trace.steps = n ∧ (r.after (before ++ [last])).trace.steps = n + 1 := by
  induction happenings generalizing r with
  | nil => exact absurd hn (Nat.not_lt_of_le hr)
  | cons h more ih =>
    have hle := r.steps_note_le h
    -- the step is recorded by what happens first, or later
    by_cases hnext : (r.note h).trace.steps ≤ n
    · obtain ⟨before, last, later, rfl, hbefore, hafter⟩ := ih hnext hn
      exact ⟨h :: before, last, later, rfl, hbefore, hafter⟩
    · refine ⟨[], h, more, rfl, ?_, ?_⟩
      · show r.trace.steps = n
        omega
      · show (r.note h).trace.steps = n + 1
        omega

end Recording

/-! ## Evaluations -/

/-- The heap and the trace of an evaluator. -/
def Machine.recording (m : Machine) : Recording := ⟨m.heap, m.trace⟩

namespace Recording

/-- One recording comes from another one. -/
def Leads (r r' : Recording) : Prop := ∃ happenings, r.after happenings = r'

variable {r r₁ r₂ : Recording}

theorem Leads.refl (r : Recording) : r.Leads r := ⟨[], rfl⟩

theorem Leads.trans (h : r.Leads r₁) (h' : r₁.Leads r₂) : r.Leads r₂ := by
  obtain ⟨happenings, rfl⟩ := h
  obtain ⟨more, rfl⟩ := h'
  exact ⟨happenings ++ more, r.after_append happenings more⟩

theorem leads_note (r : Recording) (h : Happening) : r.Leads (r.note h) := ⟨[h], rfl⟩

theorem leads_bindAll (heap : Heap) (trace : Trace) (scope : ScopeId)
    (pairs : List (Node × Value)) : Leads ⟨heap, trace⟩ ⟨heap.bindAll scope pairs, trace⟩ := by
  induction pairs generalizing heap with
  | nil => exact .refl _
  | cons pair more ih =>
    obtain ⟨parameter, argument⟩ := pair
    rw [Heap.bindAll]
    split
    · next name _ => exact (leads_note _ (.bind scope name argument)).trans (ih _)
    · exact ih heap

end Recording

/-- A step of an evaluation that is recorded is a number of happenings. -/
theorem Config.Step.leads {c c' : Config} (ht : c.machine.tracing = true) (h : c.Step c') :
    c.machine.recording.Leads c'.machine.recording := by
  cases h with
  | @enter m node scope _ _ =>
    have hnote : (m.enter node scope).recording = m.recording.note (.enter node scope) := by
      simp only [Machine.recording, Machine.enter, show m.tracing = true from ht, if_true,
        Recording.note]
    rw [hnote]
    exact Recording.leads_note _ _
  | visit _ => exact .refl _
  | call _ =>
    exact (Recording.leads_note _ (.makeScope _)).trans (Recording.leads_bindAll _ _ _ _)
  | @finish m f rest ending _ =>
    have hending : m.recording.Leads (ending.apply f.scope m).2.recording :=
      ending.machine_apply (m.recording.Leads ·.recording) (.refl _)
        (Recording.leads_note _ .makeValue) fun _ _ => Recording.leads_note _ (.bind _ _ _)
    have htracing : (ending.apply f.scope m).2.tracing = true :=
      (ending.sameSetup_apply _ _).tracing.trans ht
    have hnote : ∀ value, ((ending.apply f.scope m).2.leave f.node f.scope value).recording =
        (ending.apply f.scope m).2.recording.note (.exit f.node f.scope value) := by
      intro value
      simp only [Machine.recording, Machine.leave, htracing, if_true, Recording.note]
    rw [machine_deliver, hnote]
    exact hending.trans (Recording.leads_note _ _)

theorem Config.Reaches.leads {c c' : Config} (ht : c.machine.tracing = true) (h : c.Reaches c') :
    c.machine.recording.Leads c'.machine.recording := by
  induction h with
  | refl => exact .refl _
  | tail hreach hstep ih => exact ih.trans (hstep.leads ((Reaches.tracing_eq hreach).trans ht))

/-- **Every evaluation is a recording.** -/
theorem Machine.eval_recording (heap : Heap) (limit : Nat) (root : Node) (scope : ScopeId) :
    ∃ happenings, (Recording.start (new heap limit true).heap).after happenings =
      ((new heap limit true).eval root scope).2.recording := by
  obtain ⟨c, hreach, _, hheap, htrace, _⟩ := (new heap limit true).eval_ended root scope
  have hrecording : ((new heap limit true).eval root scope).2.recording = c.machine.recording := by
    rw [recording, hheap, htrace]
    rfl
  rw [hrecording]
  exact Config.Reaches.leads rfl hreach

end TraceTree

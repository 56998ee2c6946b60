import TraceTree.Proofs.Trace.Moment

set_option autoImplicit false

/-! # Traces as replays

A trace that is recorded from the beginning is determined by what is noted, one note for each step:
that a node is entered, or that it is left. `Trace.replay` records notes one after another. Its
beginning up to a step is the replay of the first notes (`Trace.upTo_replay`), because the scopes and
the steps of their first occurrence are lists in step with each other, and the steps ascend
(`Trace.Indexed`). -/

namespace TraceTree

namespace Trace

/-- What is noted in one step. -/
inductive Note where
  | enter (node : Node) (scope : ScopeId)
  | exit (node : Node) (scope : ScopeId) (value : Option Value)

namespace Note

/-- The scope that is noted. -/
def scope : Note → ScopeId
  | enter _ scope | exit _ scope _ => scope

/-- The event that a note is at a step. -/
def event (step : Nat) : Note → Event
  | enter node scope => .entry step node scope
  | exit node scope value => .exit step node scope value

@[simp] theorem scope_event (step : Nat) (note : Note) : (note.event step).scope = note.scope := by
  cases note <;> rfl

end Note

/-- Record a note. -/
def add (t : Trace) : Note → Trace
  | .enter node scope => t.enter node scope
  | .exit node scope value => t.exit node scope value

/-- The trace of notes that are recorded one after another. -/
def replay (notes : List Note) : Trace := notes.foldl add empty

section Steps

variable {t : Trace}

theorem add_eq (t : Trace) (note : Note) :
    t.add note = { t.observe note.scope with events := t.events.push (note.event t.steps) } := by
  cases note <;> simp [add, enter, exit, Note.scope, Note.event]

theorem continues_add (t : Trace) (note : Note) : t.Continues (t.add note) := by
  cases note with
  | enter node scope => exact t.continues_enter node scope
  | exit node scope value => exact t.continues_exit node scope value

theorem Timely.add (h : t.Timely) (note : Note) : (t.add note).Timely := by
  rw [add_eq]
  exact h.record note.scope _

end Steps

/-! ## Replays -/

theorem replay_concat (notes : List Note) (note : Note) :
    replay (notes ++ [note]) = (replay notes).add note := by
  rw [replay, List.foldl_append]
  rfl

theorem timely_replay (notes : List Note) : (replay notes).Timely := by
  induction notes using List.reverseRecOn with
  | nil => exact timely_empty
  | append_singleton notes note ih =>
    rw [replay_concat]
    exact ih.add note

theorem continues_replay (notes more : List Note) :
    (replay notes).Continues (replay (notes ++ more)) := by
  induction more using List.reverseRecOn with
  | nil =>
    rw [List.append_nil]
    exact .refl _
  | append_singleton more note ih =>
    rw [← List.append_assoc, replay_concat]
    exact ih.trans (continues_add _ note)

/-- **The events of a replay are the notes,** each at its step. -/
theorem events_replay (notes : List Note) :
    (replay notes).events.toList = notes.mapIdx fun step note => note.event step := by
  induction notes using List.reverseRecOn with
  | nil => rfl
  | append_singleton notes note ih =>
    have hsteps : (replay notes).steps = notes.length := by
      rw [steps, ← Array.length_toList, ih, List.length_mapIdx]
    rw [replay_concat, add_eq, List.mapIdx_concat, ← ih, ← hsteps]
    exact Array.toList_push

@[simp] theorem steps_replay (notes : List Note) : (replay notes).steps = notes.length := by
  rw [steps, ← Array.length_toList, events_replay, List.length_mapIdx]

/-- **The beginning of a replay is the replay of the first notes.** -/
theorem upTo_replay_eq_take (notes : List Note) (n : Nat) :
    (replay notes).upTo n = replay (notes.take (n + 1)) := by
  have hcontinues := continues_replay (notes.take (n + 1)) (notes.drop (n + 1))
  rw [List.take_append_drop] at hcontinues
  refine hcontinues.upTo_eq (timely_replay _) ?_
  rw [steps_replay, steps_replay, List.length_take]

/-! ## The scopes of a trace -/

/-- The scopes of the events, in their order. -/
def visited (t : Trace) : List ScopeId := t.events.toList.map Event.scope

/-- The scopes of a trace are those of its events in the order of their first occurrence, each once,
with the steps of these occurrences. -/
structure Indexed (t : Trace) : Prop where
  nodup : t.scopes.toList.Nodup
  scopes : t.scopes.toList = t.visited.eraseDups
  firstSeen : t.firstSeen.toList = t.scopes.toList.map t.visited.idxOf
  ascending : t.firstSeen.toList.Pairwise (· < ·)

/-- What a list keeps when its last element occurs before already, or does not. -/
theorem eraseDups_concat (l : List ScopeId) (a : ScopeId) :
    (l ++ [a]).eraseDups = if a ∈ l then l.eraseDups else l.eraseDups ++ [a] := by
  rw [List.eraseDups_append]
  by_cases ha : a ∈ l <;> simp [List.removeAll, ha, List.eraseDups_cons]

theorem visited_add (t : Trace) (note : Note) :
    (t.add note).visited = t.visited ++ [note.scope] := by
  rw [add_eq, visited, visited]
  simp

theorem visited_replay (notes : List Note) : (replay notes).visited = notes.map Note.scope := by
  induction notes using List.reverseRecOn with
  | nil => rfl
  | append_singleton notes note ih =>
    rw [replay_concat, visited_add, ih, List.map_append, List.map_singleton]

namespace Indexed

variable {t : Trace}

theorem mem_scopes (h : t.Indexed) {scope : ScopeId} :
    scope ∈ t.scopes.toList ↔ scope ∈ t.visited := by
  rw [h.scopes, List.mem_eraseDups]

theorem empty : empty.Indexed := ⟨List.nodup_nil, rfl, rfl, .nil⟩

/-- The step at which a scope was first seen stays what it is. -/
theorem firstSeen_append (h : t.Indexed) (more : List ScopeId) :
    t.firstSeen.toList = t.scopes.toList.map (t.visited ++ more).idxOf := by
  rw [h.firstSeen]
  refine List.map_congr_left fun scope hscope => ?_
  exact (List.idxOf_append_of_mem (h.mem_scopes.mp hscope)).symm

/-- A scope that was visited before is not added. -/
theorem scopes_add_of_mem (h : t.Indexed) {note : Note} (hseen : note.scope ∈ t.visited) :
    (t.add note).scopes = t.scopes ∧ (t.add note).firstSeen = t.firstSeen := by
  have hcontains : t.scopes.contains note.scope = true := by
    simpa using h.mem_scopes.mpr hseen
  rw [add_eq, observe, if_pos hcontains]
  exact ⟨rfl, rfl⟩

/-- A new scope is added at the end, with the step that comes next. -/
theorem scopes_add_of_notMem (h : t.Indexed) {note : Note} (hnew : note.scope ∉ t.visited) :
    (t.add note).scopes.toList = t.scopes.toList ++ [note.scope] ∧
      (t.add note).firstSeen.toList = t.firstSeen.toList ++ [t.steps] := by
  have hcontains : ¬ t.scopes.contains note.scope = true := by
    simpa using mt h.mem_scopes.mp hnew
  rw [add_eq, observe, if_neg hcontains]
  exact ⟨Array.toList_push, Array.toList_push⟩

/-- **A note keeps the scopes in step** with the events. -/
theorem add (h : t.Indexed) (ht : t.Timely) (note : Note) : (t.add note).Indexed := by
  have hvisited := t.visited_add note
  by_cases hseen : note.scope ∈ t.visited
  · obtain ⟨hscopes, hsteps⟩ := h.scopes_add_of_mem hseen
    refine ⟨?_, ?_, ?_, ?_⟩
    · rw [hscopes]
      exact h.nodup
    · rw [hscopes, hvisited, eraseDups_concat, if_pos hseen]
      exact h.scopes
    · rw [hscopes, hsteps, hvisited]
      exact h.firstSeen_append _
    · rw [hsteps]
      exact h.ascending
  · obtain ⟨hscopes, hsteps⟩ := h.scopes_add_of_notMem hseen
    have hnew : note.scope ∉ t.scopes.toList := mt h.mem_scopes.mp hseen
    have hlength : t.visited.length = t.steps := by
      rw [visited, List.length_map, Array.length_toList, steps]
    refine ⟨?_, ?_, ?_, ?_⟩
    · rw [hscopes]
      exact h.nodup.append (List.nodup_singleton _) (List.disjoint_singleton.mpr hnew)
    · rw [hscopes, hvisited, eraseDups_concat, if_neg hseen, h.scopes]
    · -- the scope is seen at the step that comes after all others
      rw [hscopes, hsteps, hvisited, List.map_append, ← h.firstSeen_append]
      rw [List.map_singleton, List.idxOf_append_of_notMem hseen, hlength]
      simp
    · rw [hsteps, List.pairwise_append]
      refine ⟨h.ascending, List.pairwise_singleton _ _, fun k hk last hlast => ?_⟩
      rw [List.mem_singleton.mp hlast]
      exact ht.lt k hk

/-- **A scope that was visited has a number:** its position among the scopes. -/
theorem exists_scopeNumber (h : t.Indexed) {scope : ScopeId} (hscope : scope ∈ t.visited) :
    ∃ number, t.scopeNumber scope = some number ∧ t.scopes[number]? = some scope := by
  have hsome : (t.scopeNumber scope).isSome = true :=
    Array.isSome_idxOf?.mpr (Array.mem_toList_iff.mp (h.mem_scopes.mpr hscope))
  obtain ⟨number, hnumber⟩ := Option.isSome_iff_exists.mp hsome
  refine ⟨number, hnumber, ?_⟩
  rw [scopeNumber, ← Array.idxOf?_toList] at hnumber
  obtain ⟨hlt, hat, _⟩ := List.idxOf?_eq_some_iff.mp hnumber
  rw [← Array.getElem?_toList, List.getElem?_eq_getElem hlt, hat]

end Indexed

theorem indexed_replay (notes : List Note) : (replay notes).Indexed := by
  induction notes using List.reverseRecOn with
  | nil => exact .empty
  | append_singleton notes note ih =>
    rw [replay_concat]
    exact ih.add (timely_replay notes) note

end Trace

/-- **What is recorded is a replay,** whatever happens besides. -/
theorem Recording.exists_replay (heap : Heap) (happenings : List Happening) :
    ∃ notes, ((start heap).after happenings).trace = Trace.replay notes := by
  induction happenings using List.reverseRecOn with
  | nil => exact ⟨[], rfl⟩
  | append_singleton happenings h ih =>
    obtain ⟨notes, hnotes⟩ := ih
    rw [after_append, after_cons, after_nil]
    cases h with
    | enter node scope =>
      refine ⟨notes ++ [.enter node scope], ?_⟩
      rw [Trace.replay_concat, ← hnotes]
      rfl
    | exit node scope value =>
      refine ⟨notes ++ [.exit node scope value], ?_⟩
      rw [Trace.replay_concat, ← hnotes]
      rfl
    | bind | makeScope | makeValue => exact ⟨notes, hnotes⟩

namespace Trace

/-- **`upTo` replays a beginning.** A trace that comes from any notes has one event for each of them.
Its beginning up to a step, however great, is the replay of the notes up to this step, in its events,
its scopes and the steps of their first occurrence; so beginnings of beginnings are beginnings. Its
scopes are those of its events in the order of their first occurrence, each once, and each event has
a number for its scope. All recordings are such replays. -/
theorem upTo_replay :
    (∀ notes : List Note,
      let t := replay notes
      t.events.toList = notes.mapIdx (fun step note => note.event step) ∧
        (∀ n, t.upTo n = replay (notes.take (min (n + 1) t.steps))) ∧
        (∀ m n, (t.upTo n).upTo m = t.upTo (min m n)) ∧
        t.Indexed ∧
        ∀ scope ∈ t.visited,
          ∃ number, t.scopeNumber scope = some number ∧ t.scopes[number]? = some scope) ∧
    ∀ (heap : Heap) (happenings : List Happening),
      ∃ notes, ((Recording.start heap).after happenings).trace = replay notes := by
  refine ⟨fun notes => ⟨events_replay notes, fun n => ?_, fun m n => ?_, indexed_replay notes,
    fun scope hscope => (indexed_replay notes).exists_scopeNumber hscope⟩, Recording.exists_replay⟩
  · rw [upTo_replay_eq_take, steps_replay, ← List.take_eq_take_min]
  · simp only [upTo_replay_eq_take, List.take_take]
    congr 2
    omega

/-- A node in one scope, with another one in a second scope inside. -/
def nestedNotes : List Note :=
  [.enter (.integer 0 7) 4, .enter (.integer 1 8) 2, .exit (.integer 1 8) 2 none,
    .exit (.integer 0 7) 4 none]

/-- The second scope is not yet in the beginning up to the first step; in the whole trace it has a
number. -/
theorem upTo_replay_nestedNotes :
    (replay nestedNotes).upTo 0 = replay (nestedNotes.take 1) ∧
      2 ∈ (replay nestedNotes).visited ∧
      ∃ number, (replay nestedNotes).scopeNumber 2 = some number ∧
        (replay nestedNotes).scopes[number]? = some 2 := by
  obtain ⟨_, hupTo, _, _, hnumber⟩ := upTo_replay.1 nestedNotes
  have hvisited : 2 ∈ (replay nestedNotes).visited := by
    rw [visited_replay]
    decide
  exact ⟨by rw [hupTo 0, steps_replay]; rfl, hvisited, hnumber 2 hvisited⟩

end Trace

end TraceTree

import TraceTree.Proofs.Diagram.Bare
import TraceTree.Proofs.Trace.Replay
import TraceTree.Trace.Listing

set_option autoImplicit false

/-! # The lines of a listing

A text that is folded has no line breaks (`Text.oneLine_isLine`), and neither has anything else in the
line of an event. So the listing of a trace has one line for each event, whatever the names and
messages in it are (`Trace.listing_replay`). The steps all take the width of the largest one, and the
scopes have their numbers as the scopes of a trace are those of its events. -/

namespace TraceTree

/-! ## Texts without line breaks -/

namespace Text

/-- A text has no line breaks. -/
def IsLine (s : String) : Prop := '\n' ∉ s.toList

instance decidableIsLine (s : String) : Decidable (IsLine s) :=
  inferInstanceAs (Decidable ('\n' ∉ s.toList))

theorem isLine_append {a b : String} : IsLine (a ++ b) ↔ IsLine a ∧ IsLine b := by
  rw [IsLine, String.toList_append, List.mem_append, not_or, IsLine, IsLine]

theorem Bare.isLine {s : String} (h : Bare s.toList) : IsLine s := fun hmem => (h _ hmem).2.2 rfl

theorem isLine_blanks (n : Nat) : IsLine (blanks n) := (bare_blanks n).isLine

theorem isLine_toString (n : Nat) : IsLine (toString n) := (bare_toString_nat n).isLine

variable {sep : Char → Bool} {cs piece : List Char}

/-- No piece of a text that is cut at separators has a separator in it. -/
theorem not_sep_of_mem_splitAll (h : piece ∈ splitAll sep cs) : ∀ c ∈ piece, sep c = false := by
  induction cs generalizing piece with
  | nil =>
    rw [List.mem_singleton.mp h]
    exact fun _ hc => absurd hc List.not_mem_nil
  | cons c cs ih =>
    rw [splitAll] at h
    split at h
    · rcases List.mem_cons.mp h with rfl | h
      · exact fun _ hc => absurd hc List.not_mem_nil
      · exact ih h
    · next hc =>
      split at h
      · rw [List.mem_singleton.mp h]
        exact List.forall_mem_singleton.mpr (Bool.eq_false_iff.mpr hc)
      · next first more hsplit =>
        rw [hsplit] at ih
        rcases List.mem_cons.mp h with rfl | h
        · exact List.forall_mem_cons.mpr ⟨Bool.eq_false_iff.mpr hc, ih List.mem_cons_self⟩
        · exact ih (List.mem_cons_of_mem _ h)

/-- The characters of joined pieces are those of the pieces and of what stands between them. -/
theorem mem_joinWith {between : List Char} {pieces : List (List Char)} {c : Char}
    (h : c ∈ joinWith between pieces) : c ∈ between ∨ ∃ piece ∈ pieces, c ∈ piece := by
  induction pieces with
  | nil => exact absurd h List.not_mem_nil
  | cons piece more ih =>
    cases more with
    | nil => exact Or.inr ⟨piece, List.mem_cons_self, h⟩
    | cons next rest =>
      rw [joinWith, List.mem_append, List.mem_append] at h
      · rcases h with (h | h) | h
        · exact Or.inr ⟨piece, List.mem_cons_self, h⟩
        · exact Or.inl h
        · rcases ih h with h | ⟨piece, hpiece, h⟩
          · exact Or.inl h
          · exact Or.inr ⟨piece, List.mem_cons_of_mem _ hpiece, h⟩
      · exact List.cons_ne_nil _ _

/-- **A text that is folded is one line.** -/
theorem oneLine_isLine (s : String) : IsLine (oneLine s) := by
  intro hmem
  rw [oneLine, String.toList_ofList] at hmem
  rcases mem_joinWith hmem with hblank | ⟨line, hline, hmem⟩
  · exact absurd hblank (by decide)
  · obtain ⟨piece, hpiece, rfl⟩ := List.mem_map.mp (List.mem_of_mem_filter hline)
    have hsep := not_sep_of_mem_splitAll hpiece '\n' (trimBoth_subset piece hmem)
    exact absurd hsep (by decide)

end Text

theorem Node.isLine_typeName (n : Node) : Text.IsLine n.typeName := by
  cases n <;> rw [typeName] <;> decide

namespace Trace

/-! ## The lines of notes -/

namespace Note

/-- The node that is noted. -/
def node : Note → Node
  | enter node _ | exit node _ _ => node

/-- The arrow of a note, with the letter before the number of the scope. -/
def arrow : Note → String
  | enter _ _ => " ↓ e"
  | exit _ _ _ => " ↑ e"

/-- What a line says after the kind of the node: the node that is entered, or the value that is left,
folded into one line. -/
def detail : Note → String
  | enter node _ => ": " ++ Text.oneLine node.text
  | exit _ _ none => ""
  | exit _ _ (some value) => " => " ++ Text.oneLine value.text

/-- A line says what is noted at a step of a replay: the step, at the right edge of a field that has
the width of the largest step, the arrow, the position of the scope among all scopes in the order of
their first occurrence, and the kind of the node. -/
def Written (notes : List Note) (step : Nat) (note : Note) (line : String) : Prop :=
  ∃ before number : Nat,
    before + (toString step).length = (toString (notes.length - 1)).length ∧
      (notes.map scope).eraseDups[number]? = some note.scope ∧
      line = Text.blanks before ++ toString step ++ note.arrow ++ toString number ++ " " ++
        note.node.typeName ++ note.detail

theorem isLine_arrow (note : Note) : Text.IsLine note.arrow := by
  cases note <;> rw [arrow] <;> decide

theorem isLine_detail (note : Note) : Text.IsLine note.detail := by
  match note with
  | enter node scope =>
    exact Text.isLine_append.mpr ⟨by decide, Text.oneLine_isLine _⟩
  | exit node scope none => exact List.not_mem_nil
  | exit node scope (some value) =>
    exact Text.isLine_append.mpr ⟨by decide, Text.oneLine_isLine _⟩

theorem Written.isLine {notes : List Note} {step : Nat} {note : Note} {line : String}
    (h : note.Written notes step line) : Text.IsLine line := by
  obtain ⟨before, number, _, _, rfl⟩ := h
  simp only [Text.isLine_append]
  exact ⟨⟨⟨⟨⟨⟨Text.isLine_blanks before, Text.isLine_toString step⟩, note.isLine_arrow⟩,
    Text.isLine_toString number⟩, by decide⟩, note.node.isLine_typeName⟩,
    note.isLine_detail⟩

end Note

/-- The digits of a step are no more than those of the largest one. -/
theorem length_toString_le {step last : Nat} (h : step ≤ last) :
    (toString step).length ≤ (toString last).length := by
  have hpos : 0 < last.repr.length := Nat.length_repr_pos
  have hlast : last < 10 ^ last.repr.length := (Nat.length_repr_le_iff hpos).mp le_rfl
  exact (Nat.length_repr_le_iff hpos).mpr (h.trans_lt hlast)

theorem line_event {t : Trace} {note : Note} {number : Nat}
    (hnumber : t.scopeNumber note.scope = some number) (width step : Nat) :
    (note.event step).line t width =
      Text.padLeft width (toString step) ++ note.arrow ++ toString number ++ " " ++
        note.node.typeName ++ note.detail := by
  have hscope : toString (t.scopeNumber note.scope).toInt = toString number := by
    rw [hnumber]
    rfl
  rw [← hscope]
  match note with
  | .enter node scope =>
    simp only [Note.event, Event.line, Event.isEntry, if_true, Note.detail, String.append_assoc]
    rfl
  | .exit node scope none =>
    simp only [Note.event, Event.line, Event.isEntry, Note.detail, String.append_empty]
    rfl
  | .exit node scope (some value) =>
    simp only [Note.event, Event.line, Event.isEntry, Note.detail, String.append_assoc]
    rfl

/-- **The line of an event** says what was noted. -/
theorem written_line {notes : List Note} {step : Nat} {note : Note}
    (hnote : notes[step]? = some note) :
    note.Written notes step ((note.event step).line (replay notes)
      (toString ((replay notes).steps - 1)).length) := by
  obtain ⟨hstep, rfl⟩ := List.getElem?_eq_some_iff.mp hnote
  have hscope : notes[step].scope ∈ (replay notes).visited := by
    rw [visited_replay]
    exact List.mem_map_of_mem (List.getElem_mem hstep)
  obtain ⟨number, hnumber, hat⟩ := (indexed_replay notes).exists_scopeNumber hscope
  have hwidth : (toString step).length ≤ (toString (notes.length - 1)).length :=
    length_toString_le (Nat.le_sub_one_of_lt hstep)
  refine ⟨(toString (notes.length - 1)).length - (toString step).length, number,
    Nat.sub_add_cancel hwidth, ?_, ?_⟩
  · rw [← visited_replay, ← (indexed_replay notes).scopes, Array.getElem?_toList]
    exact hat
  · rw [steps_replay, line_event hnumber]
    rfl

/-- **The listing has one line for each event.** Whatever is noted, with any nodes, scopes and values
and any names and messages in them, the listing of the trace consists of as many lines as there are
steps, each ended by a line break, and no other line break is in it. The line of each step begins with
the step at the right edge of a field as wide as the largest step, the arrow for an entry or an exit,
the number of the scope in the order of first occurrence, and the kind of the node. -/
theorem listing_replay (notes : List Note) :
    ∃ lines : List String,
      lines.length = (replay notes).steps ∧
        (replay notes).listing = String.join (lines.map (· ++ "\n")) ∧
        (∀ line ∈ lines, Text.IsLine line) ∧
        ∀ (step : Nat) (note : Note), notes[step]? = some note →
          ∃ line, lines[step]? = some line ∧ note.Written notes step line := by
  let width := (toString ((replay notes).steps - 1)).length
  refine ⟨(replay notes).events.toList.map fun e => e.line (replay notes) width, ?_, ?_, ?_, ?_⟩
  · rw [List.length_map, Array.length_toList, steps]
  · rw [listing, List.map_map]
    rfl
  · intro line hline
    obtain ⟨e, he, rfl⟩ := List.mem_map.mp hline
    rw [events_replay] at he
    obtain ⟨step, hstep, rfl⟩ := List.mem_mapIdx.mp he
    exact (written_line (List.getElem?_eq_getElem hstep)).isLine
  · intro step note hnote
    refine ⟨_, ?_, written_line hnote⟩
    rw [List.getElem?_map, events_replay, List.getElem?_mapIdx, hnote]
    rfl

/-- A name that is not bound, with a line break in it, and the fault that it comes to. -/
def brokenNotes : List Note :=
  [.enter (.identifier 0 "a\nb") 3,
    .exit (.identifier 0 "a\nb") 3 (some (.error (.made 0) (.unboundIdentifier "a\nb")))]

/-- The listing of the broken name and the broken message has two lines. -/
theorem listing_replay_brokenNotes :
    ∃ note, brokenNotes[1]? = some note ∧
      ∃ lines : List String, lines.length = 2 ∧
        (replay brokenNotes).listing = String.join (lines.map (· ++ "\n")) ∧
        ∃ line, lines[1]? = some line ∧ Text.IsLine line ∧ note.Written brokenNotes 1 line := by
  obtain ⟨lines, hlength, hlisting, hlines, hwritten⟩ := listing_replay brokenNotes
  obtain ⟨line, hline, hsays⟩ := hwritten 1 _ rfl
  rw [steps_replay] at hlength
  exact ⟨_, rfl, lines, hlength, hlisting, line, hline,
    hlines line (List.mem_of_getElem? hline), hsays⟩

end Trace

end TraceTree

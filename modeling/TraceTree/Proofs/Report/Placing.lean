import TraceTree.Proofs.Syntax.Settling
import TraceTree.Report.Basic

set_option autoImplicit false

/-! # Where a report points

A span counts bytes and an excerpt counts characters. A report takes the bounds of its label from a
span as they are, so it points at the failing place only where both counts agree: where each character
before the place takes one byte (`ParseError.pointsAt_iff`). Behind any other character the label is
moved to the right, by the bytes that the characters before the place have too many.

What fails in a text is a single place or an integer, so the label always has the right length. -/

namespace TraceTree

open String (utf8Len)

/-! ## Bytes and characters -/

/-- The characters before a byte offset of a text. -/
def textBefore (source : String) (offset : Nat) : List Char :=
  (Span.mk 0 offset).sliceFrom 0 source.toList

/-- The number of characters before a byte offset of a text. -/
def charsBefore (source : String) (offset : Nat) : Nat := (textBefore source offset).length

/-- Each character before a byte offset of a text takes one byte. -/
def OneByteBefore (source : String) (offset : Nat) : Prop :=
  ∀ x ∈ textBefore source offset, x.utf8Size = 1

theorem utf8Len_eq_length_iff {cs : List Char} :
    utf8Len cs = cs.length ↔ ∀ x ∈ cs, x.utf8Size = 1 := by
  induction cs with
  | nil => simp
  | cons x cs ih =>
    have hsize := x.utf8Size_pos
    have hrest := length_le_utf8Len cs
    rw [List.forall_mem_cons, ← ih, String.utf8Len_cons, List.length_cons]
    omega

theorem utf8Size_of_isDigit {x : Char} (h : isDigit x = true) : x.utf8Size = 1 := by
  simp only [isDigit, Bool.and_eq_true, decide_eq_true_eq] at h
  have hnine : ('9').val ≤ 0x7f := by decide
  exact if_pos (UInt32.le_trans h.2 hnine)

section

variable {source : String} {c d : Cursor}

theorem Cursor.LeadsTo.textBefore_eq (h : (ofText source.toList).LeadsTo c) :
    textBefore source c.offset = (ofText source.toList).upTo c :=
  String.ofList_injective ((LeadsTo.refl (ofText source.toList)).slice_eq h)

theorem Cursor.LeadsTo.charsBefore_add (h : (ofText source.toList).LeadsTo c) :
    charsBefore source c.offset + c.rest.length = source.length := by
  rw [charsBefore, h.textBefore_eq, ← String.length_toList, ← List.length_append]
  exact congrArg List.length h.upTo_append

theorem Cursor.LeadsTo.oneByteBefore_iff (h : (ofText source.toList).LeadsTo c) :
    OneByteBefore source c.offset ↔ c.offset = charsBefore source c.offset := by
  have hoffset : c.offset = utf8Len ((ofText source.toList).upTo c) :=
    h.offset_eq.trans (Nat.zero_add _)
  unfold OneByteBefore charsBefore
  rw [h.textBefore_eq, ← utf8Len_eq_length_iff, ← hoffset]

theorem Cursor.LeadsTo.offset_add (h : (ofText source.toList).LeadsTo c) :
    c.offset + utf8Len c.rest = source.utf8ByteSize := by
  obtain ⟨passed, hrest, hoffset⟩ := h
  rw [← String.utf8Len_toList, show source.toList = passed ++ c.rest from hrest,
    String.utf8Len_append, hoffset]
  exact congrArg (· + _) (Nat.zero_add _)

end

/-! ## Where reading fails -/

/-- What failed begins and ends at places of a text, and each character between them takes one
byte. -/
structure ParseError.At (e : ParseError) (source : String) (c d : Cursor) : Prop where
  start : (Cursor.ofText source.toList).LeadsTo c
  stop : c.LeadsTo d
  span_eq : e.span = ⟨c.offset, d.offset⟩
  oneByte : ∀ x ∈ c.upTo d, x.utf8Size = 1

/-- A pair between two places, also inside another one, has the text between two places. -/
theorem Pair.Spread.exists_ends {start c d : Cursor} {ps : List Pair} (h : Pair.Spread c ps d)
    (hc : start.LeadsTo c) : ∀ q ∈ Pair.within ps, ∃ e f, start.LeadsTo e ∧ e.LeadsTo f ∧
      q.span = ⟨e.offset, f.offset⟩ ∧ q.text = e.upTo f := by
  induction h with
  | nil => simp [Pair.within, Pair.preorderAll]
  | @cons c d e f r inner more hd _ hinner _ ihinner ihmore =>
    have hstart := hc.trans hd
    intro q hq
    rw [Pair.within_cons, List.mem_cons, List.mem_append] at hq
    rcases hq with rfl | hq | hq
    · exact ⟨d, e, hstart, hinner.leadsTo, rfl, rfl⟩
    · exact ihinner hstart q hq
    · exact ihmore (hstart.trans hinner.leadsTo) q hq

/-- What holds of pairs and of all pairs inside them holds of those that are passed. -/
theorem Pair.forall_within {holds : Pair → Prop} {ps : List Pair}
    (h : ∀ p ∈ ps, p.Everywhere holds) : ∀ q ∈ Pair.within ps, holds q := by
  match ps with
  | [] => simp [within, preorderAll]
  | .mk r span text inner :: more =>
    obtain ⟨hp, hmore⟩ := List.forall_mem_cons.mp h
    intro q hq
    rw [within_cons, List.mem_cons, List.mem_append] at hq
    rcases hq with rfl | hq | hq
    · exact hp.here
    · exact Pair.forall_within hp.inside q hq
    · exact Pair.forall_within hmore q hq
termination_by sizeOf ps

/-- A text is refused at a place of it, or for an integer in it. -/
theorem exists_at_of_parseAt {first : NodeId} {source : String} {level : Level} {e : ParseError}
    (h : parseAt first source level = .error e) : ∃ c d, e.At source c d := by
  have hlies := level.rule.lies_recognise source.toList
  rcases cases_of_parseAt_error h with ⟨a, hrun, rfl⟩ | ⟨pairs, next, a, t, hrun, hfirst, rfl⟩
  · rw [hrun] at hlies
    obtain ⟨c, hc, hoffset⟩ := hlies
    refine ⟨c, c, hc, .refl c, ?_, by simp [Cursor.upTo]⟩
    rw [hoffset]
  · -- an integer out of range: its pair is one of those of the match
    rw [hrun] at hlies
    have hmem : t ∈ Pair.within pairs := List.mem_of_find?_eq_some hfirst
    have hover : t.Oversized := by simpa using List.find?_some hfirst
    have hmade := Pair.forall_within (Rule.wellMade_of_run _ hrun) t hmem
    obtain ⟨c, d, hc, hd, hspan, htext⟩ := hlies.1.exists_ends (.refl _) t hmem
    refine ⟨c, d, hc, hd, hspan, fun x hx => utf8Size_of_isDigit ?_⟩
    obtain ⟨r, span, text, inner⟩ := t
    obtain rfl : r = .integer := hover.1
    obtain rfl : text = c.upTo d := htext
    exact hmade.spelled.2 x hx

/-! ## The label -/

/-- A label marks a span if it covers the same characters. An empty span counts as one with the
character behind it, if there is one. -/
def Label.Marks (label : Label) (source : String) (s : Span) : Prop :=
  label.start = charsBefore source s.start ∧
    label.stop = if s.start < s.stop then charsBefore source s.stop
      else min (charsBefore source s.start + 1) source.length

instance (label : Label) (source : String) (s : Span) : Decidable (label.Marks source s) :=
  inferInstanceAs (Decidable (_ ∧ _))

section

variable {source : String} {e : ParseError} {c d : Cursor}

/-- The label begins as many characters into the text as there are bytes before the span. -/
theorem ParseError.At.label_start (h : e.At source c d) :
    (e.label source.utf8ByteSize).start = e.span.start := by
  have hsize := h.start.offset_add
  simp only [label, h.span_eq]
  omega

/-- Apart from where it begins, the label is right. -/
theorem ParseError.At.label_stop (h : e.At source c d) :
    (e.label source.utf8ByteSize).stop + charsBefore source e.span.start =
      e.span.start + if e.span.start < e.span.stop then charsBefore source e.span.stop
        else min (charsBefore source e.span.start + 1) source.length := by
  have hsize := h.start.offset_add
  have hlength := h.start.charsBefore_add
  have hlength' := (h.start.trans h.stop).charsBefore_add
  have hoffset := h.stop.offset_eq
  have hrest := congrArg List.length h.stop.upTo_append
  have hbytes := length_le_utf8Len c.rest
  rw [utf8Len_eq_length_iff.mpr h.oneByte] at hoffset
  rw [List.length_append] at hrest
  have hnil : c.rest.length = 0 → utf8Len c.rest = 0 := fun hzero => by
    rw [List.length_eq_zero_iff.mp hzero]
    rfl
  simp only [label, h.span_eq]
  split <;> omega

theorem ParseError.At.marks_iff (h : e.At source c d) :
    (e.label source.utf8ByteSize).Marks source e.span ↔ OneByteBefore source e.span.start := by
  have hstart := h.label_start
  have hstop := h.label_stop
  have hcounts := h.start.oneByteBefore_iff
  rw [show c.offset = e.span.start by rw [h.span_eq]] at hcounts
  rw [hcounts, Label.Marks]
  omega

end

/-! ## The lines of a text -/

namespace SourceLine

/-- The lines follow one another, from one number of characters to another. -/
def Follow : Nat → List SourceLine → Nat → Prop
  | lo, [], hi => lo = hi
  | lo, line :: more, hi => line.start = lo ∧ Follow line.stop more hi

theorem follow_linesFrom (start : Nat) (read cs : List Char) :
    Follow start (linesFrom start read cs) (start + read.length + cs.length) := by
  induction cs generalizing start read with
  | nil =>
    cases read with
    | nil => rfl
    | cons x read => exact ⟨rfl, by simp [Follow, stop]⟩
  | cons x cs ih =>
    rw [linesFrom]
    split
    · refine ⟨rfl, ?_⟩
      have hmore := ih (start + read.length + 1) []
      simp only [stop, List.length_reverse, List.length_cons, List.length_nil] at hmore ⊢
      rwa [Nat.add_zero, Nat.add_assoc (start + _), Nat.add_comm 1] at hmore
    · have hmore := ih start (x :: read)
      rwa [List.length_cons, ← Nat.add_assoc, Nat.add_right_comm] at hmore

theorem follow_ofText (text : List Char) : Follow 0 (ofText text) text.length := by
  have hlines := follow_linesFrom 0 [] text
  rw [List.length_nil, Nat.zero_add] at hlines
  unfold ofText
  split
  · next hnil =>
    rw [hnil] at hlines
    exact ⟨rfl, hlines⟩
  · exact hlines

theorem ofText_ne_nil (text : List Char) : ofText text ≠ [] := by
  unfold ofText
  split
  · simp
  · next h => exact h

variable {lo hi index : Nat} {lines before after : List SourceLine} {line : SourceLine}

theorem Follow.le (h : Follow lo lines hi) : ∀ l ∈ lines, lo ≤ l.start := by
  induction lines generalizing lo with
  | nil => simp
  | cons line more ih =>
    refine List.forall_mem_cons.mpr ⟨Nat.le_of_eq h.1.symm, fun l hl => ?_⟩
    have hmore := ih h.2 l hl
    have hstart := h.1
    simp only [stop] at hmore
    omega

/-- The lines before a line begin at or before it, and those after it begin where it ends or
later. -/
theorem Follow.around (h : Follow lo (before ++ line :: after) hi) :
    (∀ l ∈ before, l.start ≤ line.start) ∧ ∀ l ∈ after, line.stop ≤ l.start := by
  induction before generalizing lo with
  | nil => exact ⟨by simp, h.2.le⟩
  | cons first before ih =>
    obtain ⟨hbefore, hafter⟩ := ih h.2
    refine ⟨List.forall_mem_cons.mpr ⟨?_, hbefore⟩, hafter⟩
    have hline := h.2.le line (by simp)
    simp only [stop] at hline
    omega

/-- A place up to the end of the lines is in one of them. -/
theorem Follow.exists_line (h : Follow lo lines hi) (hne : lines ≠ []) (hlo : lo ≤ index)
    (hhi : index ≤ hi) : ∃ before line after, lines = before ++ line :: after ∧
      line.start ≤ index ∧ (index < line.stop ∨ after = [] ∧ index = line.stop) := by
  induction lines generalizing lo with
  | nil => exact absurd rfl hne
  | cons line more ih =>
    by_cases hhere : index < line.stop
    · exact ⟨[], line, more, rfl, h.1 ▸ hlo, .inl hhere⟩
    · by_cases hmore : more = []
      · subst hmore
        have hend : line.stop = hi := h.2
        exact ⟨[], line, [], rfl, h.1 ▸ hlo, .inr ⟨rfl, by omega⟩⟩
      · obtain ⟨before, other, after, rfl, hother⟩ := ih h.2 hmore (by omega)
        exact ⟨line :: before, other, after, rfl, hother⟩

end SourceLine

/-- The place behind the first `index` characters of a text is in a line and a column of it, counted
from one. The end of the text is in its last line. -/
def StandsAt (text : List Char) (index number column : Nat) : Prop :=
  ∃ before line after, SourceLine.ofText text = before ++ line :: after ∧
    (index < line.stop ∨ after = [] ∧ index = line.stop) ∧
    number = before.length + 1 ∧ line.start + column = index + 1 ∧ 0 < column

section

variable {text : List Char} {index number column : Nat}

theorem exists_standsAt (h : index ≤ text.length) :
    ∃ number column, StandsAt text index number column := by
  obtain ⟨before, line, after, hlines, hstart, hstop⟩ := (SourceLine.follow_ofText text).exists_line
    (SourceLine.ofText_ne_nil text) (Nat.zero_le _) h
  exact ⟨_, index + 1 - line.start, before, line, after, hlines, hstop, rfl, by omega, by omega⟩

/-- Different places have different lines or columns. -/
theorem StandsAt.index_eq {index' : Nat} (h : StandsAt text index number column)
    (h' : StandsAt text index' number column) : index = index' := by
  obtain ⟨before, line, after, hlines, -, hnumber, hcolumn, -⟩ := h
  obtain ⟨before', line', after', hlines', -, hnumber', hcolumn', -⟩ := h'
  have hsplit := hlines.symm.trans hlines'
  obtain ⟨-, hline⟩ := List.append_inj hsplit (by omega)
  obtain ⟨rfl, -⟩ := List.cons.inj hline
  omega

/-- The line of a label is the one where it begins. -/
theorem StandsAt.lineOf_eq {label : Label} (h : StandsAt text label.start number column) :
    ∃ line, label.lineOf (SourceLine.ofText text) = (number, line) ∧
      label.start - line.start + 1 = column := by
  obtain ⟨before, line, after, hlines, hstop, rfl, hcolumn, hpos⟩ := h
  refine ⟨line, ?_, by omega⟩
  have hfollow := SourceLine.follow_ofText text
  rw [hlines] at hfollow
  obtain ⟨-, hafter⟩ := hfollow.around
  -- no line after it begins at or before the label
  have hnone : (after.zipIdx (before.length + 1)).filter
      (fun l => decide (l.1.start ≤ label.start)) = [] := by
    refine List.filter_eq_nil_iff.mpr fun l hl => ?_
    have hmem : l.1 ∈ after := List.fst_mem_of_mem_zipIdx hl
    have hline := hafter l.1 hmem
    rcases hstop with hstop | ⟨rfl, -⟩
    · simp only [decide_eq_true_eq]
      omega
    · simp at hmem
  have hlast : (((before ++ line :: after).zipIdx).filter
      (fun l => decide (l.1.start ≤ label.start))).getLast? = some (line, before.length) := by
    rw [List.zipIdx_append, List.zipIdx_cons, List.filter_append, List.filter_cons, Nat.zero_add,
      hnone, if_pos (by simp; omega)]
    exact List.getLast?_concat
  rw [Label.lineOf, hlines, hlast]

end

/-! ## The heading -/

/-- The heading of an excerpt that names a line and a column. -/
def heading (indent number column : Nat) : List Piece :=
  [.bare (Text.blanks indent), .painted .margin "╭", .painted .margin "─", .painted .margin "[",
    .bare (" <input>:" ++ toString number ++ ":" ++ toString column ++ " "), .painted .margin "]"]

/-- A report names a line and a column as the failing place. -/
def ParseError.Names (e : ParseError) (source : String) (number column : Nat) : Prop :=
  ∃ indent, (e.report source)[1]? = some (heading indent number column)

theorem colon_notMem_toString (n : Nat) : ':' ∉ (toString n).toList := by
  intro h
  have hdigit := Nat.isDigit_of_mem_toDigits (by decide) (by decide) (Nat.toList_repr ▸ h)
  cases hdigit

/-- A heading tells lines and columns apart. -/
theorem heading_inj {indent indent' number number' column column' : Nat}
    (h : heading indent number column = heading indent' number' column') :
    number = number' ∧ column = column' := by
  have hplace : " <input>:" ++ toString number ++ ":" ++ toString column ++ " " =
      " <input>:" ++ toString number' ++ ":" ++ toString column' ++ " " := by
    simp only [heading, List.cons.injEq, Piece.bare, Piece.mk.injEq] at h
    exact h.2.2.2.2.1.2
  have hchars : (toString number).toList ++ ':' :: ((toString column).toList ++ [' ']) =
      (toString number').toList ++ ':' :: ((toString column').toList ++ [' ']) := by
    have hlist := congrArg String.toList hplace
    simp only [String.toList_append, List.append_assoc] at hlist
    exact List.append_cancel_left hlist
  have hfree : ':' ∉ (toString column).toList ++ [' '] := by
    rw [List.mem_append, not_or]
    exact ⟨colon_notMem_toString column, by simp⟩
  obtain ⟨hnumber, -, hrest⟩ :=
    (List.append_cons_inj_of_notMem (colon_notMem_toString number) hfree).mp hchars
  have hcolumn := List.append_cancel_right hrest
  exact ⟨Nat.repr_inj.mp (String.toList_inj.mp hnumber),
    Nat.repr_inj.mp (String.toList_inj.mp hcolumn)⟩

section

variable {source : String} {e : ParseError} {number column : Nat}

/-- If the label lies in the text, the report names the place where it begins. -/
theorem ParseError.names_of_standsAt
    (hfits : (e.label source.utf8ByteSize).fits source.toList.length = true)
    (h : StandsAt source.toList (e.label source.utf8ByteSize).start number column) :
    e.Names source number column := by
  obtain ⟨line, hline, hcolumn⟩ := h.lineOf_eq
  refine ⟨(toString number).length + 2, ?_⟩
  simp only [report, if_pos hfits, Label.excerpt, hline, hcolumn]
  rfl

/-- A report names no other place than the one where its label begins. -/
theorem ParseError.Names.standsAt (h : e.Names source number column) :
    StandsAt source.toList (e.label source.utf8ByteSize).start number column := by
  by_cases hfits : (e.label source.utf8ByteSize).fits source.toList.length = true
  · have hstart : (e.label source.utf8ByteSize).start ≤ source.toList.length := by
      simp only [Label.fits, Bool.not_eq_true', Bool.or_eq_false_iff, decide_eq_false_iff_not] at hfits
      omega
    obtain ⟨number', column', hstands⟩ := exists_standsAt hstart
    obtain ⟨indent, hheading⟩ := h
    obtain ⟨indent', hheading'⟩ := names_of_standsAt hfits hstands
    obtain ⟨rfl, rfl⟩ := heading_inj (Option.some.inj (hheading.symm.trans hheading'))
    exact hstands
  · obtain ⟨indent, hheading⟩ := h
    simp only [report, if_neg hfits] at hheading
    cases hheading

variable {c d : Cursor}

/-- A label that begins at the right place lies in the text. -/
theorem ParseError.At.fits (h : e.At source c d)
    (hmarks : (e.label source.utf8ByteSize).Marks source e.span) :
    (e.label source.utf8ByteSize).fits source.toList.length = true := by
  obtain ⟨hstart, hstop⟩ := hmarks
  have hlength := h.start.charsBefore_add
  have hlength' := (h.start.trans h.stop).charsBefore_add
  simp only [h.span_eq] at hstart hstop
  have hle : (e.label source.utf8ByteSize).stop ≤ source.length := by
    rw [hstop]
    split <;> omega
  simp only [Label.fits, String.length_toList, Bool.not_eq_true', Bool.or_eq_false_iff,
    Bool.and_eq_false_iff, decide_eq_false_iff_not]
  omega

/-- A report names the place of the failure exactly if both counts agree. -/
theorem ParseError.At.names_iff (h : e.At source c d) :
    (∃ number column, StandsAt source.toList (charsBefore source e.span.start) number column ∧
      e.Names source number column) ↔ OneByteBefore source e.span.start := by
  rw [← h.marks_iff]
  constructor
  · rintro ⟨number, column, hstands, hnames⟩
    have hstart := hnames.standsAt.index_eq hstands
    have hbytes := h.label_start
    have hstop := h.label_stop
    exact ⟨hstart, by omega⟩
  · intro hmarks
    have hle : charsBefore source e.span.start ≤ source.toList.length := by
      have hlength := h.start.charsBefore_add
      rw [h.span_eq, String.length_toList]
      exact hlength ▸ Nat.le_add_right _ _
    obtain ⟨number, column, hstands⟩ := exists_standsAt hle
    exact ⟨number, column, hstands, names_of_standsAt (h.fits hmarks) (by rwa [hmarks.1])⟩

end

/-! ## Where a report points -/

/-- **A report points at the failing place exactly if each character before it takes one byte.**
Then its label covers the same characters as the span, and the line and the column in its heading are
those of the first of them. -/
theorem ParseError.pointsAt_iff {first : NodeId} {source : String} {level : Level} {e : ParseError}
    (h : parseAt first source level = .error e) :
    ((e.label source.utf8ByteSize).Marks source e.span ↔ OneByteBefore source e.span.start) ∧
    ((∃ number column, StandsAt source.toList (charsBefore source e.span.start) number column ∧
      e.Names source number column) ↔ OneByteBefore source e.span.start) := by
  obtain ⟨c, d, he⟩ := exists_at_of_parseAt h
  exact ⟨he.marks_iff, he.names_iff⟩

/-- A name is missing, and a letter of two bytes stands behind the place. -/
theorem ParseError.pointsAt_accentBehind :
    ∃ e, parseAt 0 "let 5 // é" .program = .error e ∧
      (e.label "let 5 // é".utf8ByteSize).Marks "let 5 // é" e.span ∧
      ∃ number column, StandsAt "let 5 // é".toList (charsBefore "let 5 // é" e.span.start)
        number column ∧ e.Names "let 5 // é" number column := by
  have hparse : parseAt 0 "let 5 // é" .program = .error ⟨.mismatch ["identifier"], ⟨4, 4⟩⟩ := by cbv
  have htext : textBefore "let 5 // é" 4 = "let ".toList := by cbv
  have hbytes : OneByteBefore "let 5 // é" 4 := by
    unfold OneByteBefore
    rw [htext]
    exact List.forall_iff_forall_mem.mp (by decide)
  obtain ⟨hmarks, hnames⟩ := ParseError.pointsAt_iff hparse
  exact ⟨_, hparse, hmarks.mpr hbytes, hnames.mpr hbytes⟩

/-- An operator without operands at the beginning of a line, behind a comment with a letter of two
bytes. -/
def accentBefore : String := "//é\n="

/-- The sign stands in the first column, and the report names the second. -/
theorem ParseError.pointsBehind_accentBefore :
    ∃ e, parseAt 0 accentBefore .program = .error e ∧
      StandsAt accentBefore.toList (charsBefore accentBefore e.span.start) 2 1 ∧
      e.Names accentBefore 2 2 ∧ ¬ e.Names accentBefore 2 1 ∧
      ¬ (e.label accentBefore.utf8ByteSize).Marks accentBefore e.span := by
  have hparse : parseAt 0 accentBefore .program = .error
      ⟨.mismatch ["end of input", "expression", "`let`", "`return`"], ⟨5, 5⟩⟩ := by cbv
  have hlines : SourceLine.ofText accentBefore.toList =
      [⟨0, "//é\n".toList⟩, ⟨4, ['=']⟩] := by cbv
  have hsign : StandsAt accentBefore.toList 4 2 1 :=
    ⟨[_], _, [], hlines, .inl (by decide), rfl, rfl, by decide⟩
  have hbehind : StandsAt accentBefore.toList 5 2 2 :=
    ⟨[_], _, [], hlines, .inr ⟨rfl, rfl⟩, rfl, rfl, by decide⟩
  refine ⟨_, hparse, hsign, names_of_standsAt (by decide +kernel) hbehind, fun hnames => ?_, ?_⟩
  · exact absurd (hnames.standsAt.index_eq hsign) (by decide +kernel)
  · decide +kernel

end TraceTree

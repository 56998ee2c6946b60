import Mathlib.Data.List.Forall2
import TraceTree.Diagram.Markup

set_option autoImplicit false

/-! # Escaping for LaTeX

A text in LaTeX is written piece by piece, one piece for each character: an escape sequence for a
character with a meaning in LaTeX, and any other character as it is (`Latex.Piece`). An escape sequence
consists of such characters again, so it is not obvious what can be read back. But no escape sequence
begins with another one (`Latex.escapes_prefixFree`), nor with an ordinary character: the pieces can be
told apart from left to right, and the text is read back from them (`Markup.unescape_text`). -/

namespace TraceTree

namespace Latex

/-- The characters with a meaning in LaTeX, each with the escape sequence that stands for it. -/
def escapes : List (Char × List Char) :=
  [('\\', "\\textbackslash\x7b\x7d".toList), ('\x7b', "\\\x7b".toList), ('\x7d', "\\\x7d".toList),
    ('$', "\\$".toList), ('&', "\\&".toList), ('#', "\\#".toList), ('_', "\\_".toList),
    ('%', "\\%".toList), ('^', "\\^\x7b\x7d".toList), ('~', "\\~\x7b\x7d".toList),
    ('<', "$<$".toList), ('>', "$>$".toList)]

/-- The characters with a meaning in LaTeX. -/
def specials : List Char := escapes.map (·.1)

/-- What stands for a character: its escape sequence if it has a meaning in LaTeX, and else the
character. -/
inductive Piece : Char → List Char → Prop where
  | escape {c : Char} {sequence : List Char} (h : (c, sequence) ∈ escapes) : Piece c sequence
  | ordinary {c : Char} (h : c ∉ specials) : Piece c [c]

/-- Read a text back: where an escape sequence begins, it is read as the character that it stands for,
and all else is read as it is. `skip` characters of an escape sequence that has been read are still to
be passed over. -/
def unescapeFrom : Nat → List Char → List Char
  | _, [] => []
  | skip + 1, _ :: cs => unescapeFrom skip cs
  | 0, c :: cs =>
    match escapes.find? (fun e => e.2.isPrefixOf (c :: cs)) with
    | some (d, sequence) => d :: unescapeFrom (sequence.length - 1) cs
    | none => c :: unescapeFrom 0 cs

/-- Read a text back from LaTeX. -/
def unescape (s : String) : String := String.ofList (unescapeFrom 0 s.toList)

/-! ## Pieces -/

theorem piece_escapeLatex (c : Char) : Piece c (Markup.escapeLatex c) := by
  by_cases h : c ∈ specials
  · have hall : ∀ e ∈ escapes, (e.1, Markup.escapeLatex e.1) ∈ escapes := by decide
    obtain ⟨e, he, rfl⟩ := List.mem_map.mp h
    exact .escape (hall e he)
  · have hself : Markup.escapeLatex c = [c] := by
      simp [specials, escapes] at h
      simp [Markup.escapeLatex, h]
    rw [hself]
    exact .ordinary h

theorem unescapeFrom_append (passed cs : List Char) :
    unescapeFrom passed.length (passed ++ cs) = unescapeFrom 0 cs := by
  induction passed with
  | nil => rfl
  | cons c passed ih => exact ih

/-- No escape sequence begins with another one. -/
theorem escapes_prefixFree :
    ∀ e ∈ escapes, ∀ f ∈ escapes, e.2.isPrefixOf f.2 = true → e = f := by
  decide

/-- Where an escape sequence stands, no other one begins. -/
theorem find?_escapes {c : Char} {sequence : List Char} (h : (c, sequence) ∈ escapes)
    (cs : List Char) :
    escapes.find? (fun e => e.2.isPrefixOf (sequence ++ cs)) = some (c, sequence) := by
  have hbegins : sequence <+: sequence ++ cs := List.prefix_append sequence cs
  cases hfind : escapes.find? (fun e => e.2.isPrefixOf (sequence ++ cs)) with
  | none =>
    have hnone := List.find?_eq_none.mp hfind _ h
    exact absurd (List.isPrefixOf_iff_prefix.mpr hbegins) hnone
  | some e =>
    have he := List.mem_of_find?_eq_some hfind
    have hfound : e.2.isPrefixOf (sequence ++ cs) = true := by simpa using List.find?_some hfind
    have hbegins' : e.2 <+: sequence ++ cs := List.isPrefixOf_iff_prefix.mp hfound
    have heq : e = (c, sequence) := by
      rcases List.prefix_or_prefix_of_prefix hbegins' hbegins with hle | hle
      · exact escapes_prefixFree e he _ h (List.isPrefixOf_iff_prefix.mpr hle)
      · exact (escapes_prefixFree _ h e he (List.isPrefixOf_iff_prefix.mpr hle)).symm
    rw [heq]

/-- No escape sequence begins with an ordinary character. -/
theorem find?_ordinary {c : Char} (h : c ∉ specials) (cs : List Char) :
    escapes.find? (fun e => e.2.isPrefixOf (c :: cs)) = none := by
  have hstart : ∀ e ∈ escapes, e.2.head? ∈ specials.map some := by decide
  rw [List.find?_eq_none]
  intro e he hbegins
  obtain ⟨d, hspecial, hd⟩ := List.mem_map.mp (hstart e he)
  obtain ⟨rest, hsequence⟩ := List.head?_eq_some_iff.mp hd.symm
  rw [hsequence, List.isPrefixOf_cons_cons] at hbegins
  have heq : d = c := by
    simp at hbegins
    exact hbegins.1
  exact h (heq ▸ hspecial)

/-- A piece is read as the character that it stands for, whatever comes after it. -/
theorem Piece.unescapeFrom_append {c : Char} {piece : List Char} (h : Piece c piece)
    (cs : List Char) : unescapeFrom 0 (piece ++ cs) = c :: unescapeFrom 0 cs := by
  cases h with
  | escape h =>
    have hne : ∀ e ∈ escapes, e.2 ≠ [] := by decide
    have hfind := find?_escapes h cs
    obtain ⟨x, rest, rfl⟩ := List.exists_cons_of_ne_nil (hne _ h)
    rw [List.cons_append] at hfind
    rw [List.cons_append, unescapeFrom, hfind]
    exact congrArg (c :: ·) (Latex.unescapeFrom_append rest cs)
  | ordinary h =>
    rw [List.singleton_append, unescapeFrom, find?_ordinary h]

/-- What stands for the characters of a text is read as the text. -/
theorem unescapeFrom_flatten {cs : List Char} {pieces : List (List Char)}
    (h : List.Forall₂ Piece cs pieces) : unescapeFrom 0 pieces.flatten = cs := by
  induction h with
  | nil => rfl
  | cons hpiece _ ih => rw [List.flatten_cons, hpiece.unescapeFrom_append, ih]

end Latex

namespace Markup

theorem text_qtree_append (s t : String) :
    qtree.text (s ++ t) = qtree.text s ++ qtree.text t := by
  simp [text]

theorem forall₂_piece (cs : List Char) :
    List.Forall₂ Latex.Piece cs (cs.map escapeLatex) := by
  rw [List.forall₂_map_right_iff, List.forall₂_same]
  exact fun c _ => Latex.piece_escapeLatex c

/-- A text is read back from its LaTeX. -/
theorem unescape_text (s : String) : Latex.unescape (qtree.text s) = s := by
  have hread := Latex.unescapeFrom_flatten (forall₂_piece s.toList)
  rw [Latex.unescape, text, String.toList_ofList, List.flatMap_def, hread]
  exact String.ofList_toList

/-- Different texts are written differently, in both markups. -/
theorem text_inj (m : Markup) {s t : String} : m.text s = m.text t ↔ s = t := by
  refine ⟨fun h => ?_, fun h => congrArg m.text h⟩
  cases m with
  | plain => exact h
  | qtree => rw [← unescape_text s, h, unescape_text]

/-- **Escaping is safe and loses nothing.** The LaTeX of a text is made of one piece for each of its
characters, an escape sequence or an ordinary character; it is that of the parts of the text one after
the other; and it can be read back, so different texts have different LaTeX. -/
theorem text_qtree_faithful (s : String) :
    (∃ pieces, List.Forall₂ Latex.Piece s.toList pieces ∧
      (qtree.text s).toList = pieces.flatten) ∧
    (∀ t, qtree.text (s ++ t) = qtree.text s ++ qtree.text t) ∧
    Latex.unescape (qtree.text s) = s ∧
    ∀ t, qtree.text s = qtree.text t ↔ s = t := by
  refine ⟨⟨s.toList.map escapeLatex, forall₂_piece s.toList, ?_⟩, fun t => text_qtree_append s t,
    unescape_text s, fun t => text_inj qtree⟩
  rw [text, String.toList_ofList, List.flatMap_def]

end Markup

end TraceTree

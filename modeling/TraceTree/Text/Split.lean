import TraceTree.Text.Blank

set_option autoImplicit false

/-! # Cutting and replacing

Cutting a text at separators, joining the pieces again, and replacing a word throughout a text.
`splitAll` keeps empty pieces, so joining its pieces with the separators gives back the text;
`words` is what is left of it when blanks separate and empty pieces are dropped. -/

namespace TraceTree.Text

/-- The pieces of a text between the characters that satisfy `sep`, empty pieces included: one
piece more than there are separators. -/
def splitAll (sep : Char → Bool) : List Char → List (List Char)
  | [] => [[]]
  | c :: cs =>
    if sep c then [] :: splitAll sep cs
    else
      match splitAll sep cs with
      | [] => [[c]]
      | piece :: more => (c :: piece) :: more

/-- The maximal runs of characters that are not blank. -/
def wordsOf (cs : List Char) : List (List Char) :=
  (splitAll isBlank cs).filter (fun piece => !piece.isEmpty)

/-- Put `sep` between the pieces. -/
def joinWith (sep : List Char) : List (List Char) → List Char
  | [] => []
  | [piece] => piece
  | piece :: more => piece ++ sep ++ joinWith sep more

/-- Replace each occurrence of `word` by `new`, searching left to right; `skip` characters of an
occurrence that has been replaced are still to be passed over. An empty word occurs nowhere. -/
def replaceFrom (word new : List Char) : Nat → List Char → List Char
  | _, [] => []
  | skip + 1, _ :: cs => replaceFrom word new skip cs
  | 0, c :: cs =>
    if !word.isEmpty && word.isPrefixOf (c :: cs) then
      new ++ replaceFrom word new (word.length - 1) cs
    else c :: replaceFrom word new 0 cs

/-! ## Strings -/

/-- The words of a string. -/
def words (s : String) : List String := (wordsOf s.toList).map String.ofList

/-- Replace each occurrence of `word` in a string by `new`. -/
def replaceAll (word new s : String) : String :=
  String.ofList (replaceFrom word.toList new.toList 0 s.toList)

/-- The pieces of a string between the occurrences of a character. -/
def splitAt (sep : Char) (s : String) : List String :=
  (splitAll (· == sep) s.toList).map String.ofList

/-- Fold a text of several lines into one: each line loses its outer blanks, empty lines go, and
a single blank stands between the others. -/
def oneLine (s : String) : String :=
  let lines := (splitAll (· == '\n') s.toList).map trimBoth
  String.ofList (joinWith [' '] (lines.filter (fun line => !line.isEmpty)))

/-- A number written at the right edge of a field of `width` characters. -/
def padLeft (width : Nat) (s : String) : String :=
  String.ofList (List.replicate (width - s.length) ' ') ++ s

/-- A text written at the left edge of a field of `width` characters. -/
def padRight (width : Nat) (s : String) : String :=
  s ++ String.ofList (List.replicate (width - s.length) ' ')

/-- A number of blanks. -/
def blanks (n : Nat) : String := String.ofList (List.replicate n ' ')

end TraceTree.Text

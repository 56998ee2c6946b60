import TraceTree.Report.Paint
import TraceTree.Text.Property
import TraceTree.Text.Split

set_option autoImplicit false

/-! # Excerpts

An excerpt shows the line of a text that holds a labelled range, with a message hanging from the
middle of the range. The range counts characters. -/

namespace TraceTree

/-- A line of a text: the number of characters before it, and its characters with the end of the
line. -/
structure SourceLine where
  start : Nat
  chars : List Char

namespace SourceLine

/-- Whether a character ends a line by itself. -/
def isLineEnd (c : Char) : Bool :=
  c == '\n' || c == '\r' || c == '\x0b' || c == '\x0c' || c == '\u0085' || c == '\u2028' ||
    c == '\u2029'

/-- The lines of a text from a place on, where `start` and `read` describe the line begun (its
characters in reverse). Carriage return and newline together end one line. -/
def linesFrom (start : Nat) (read : List Char) : List Char → List SourceLine
  | [] => if read.isEmpty then [] else [⟨start, read.reverse⟩]
  | c :: rest =>
    if isLineEnd c && !(c == '\r' && rest.head? == some '\n') then
      ⟨start, (c :: read).reverse⟩ :: linesFrom (start + read.length + 1) [] rest
    else linesFrom start (c :: read) rest

/-- The lines of a text; an empty text has one empty line. -/
def ofText (text : List Char) : List SourceLine :=
  match linesFrom 0 [] text with
  | [] => [⟨0, []⟩]
  | lines => lines

/-- The number of characters up to the end of the line. -/
def stop (line : SourceLine) : Nat := line.start + line.chars.length

/-- The characters of a line that are shown. -/
def visible (line : SourceLine) : List Char := Text.trimRight line.chars

/-- What is shown for a character in a column: blanks up to the next stop for a tab, one blank for
any other blank, and else the character itself. -/
def shown (column : Nat) (c : Char) : List Char :=
  if c == '\t' then List.replicate (4 - column % 4) ' '
  else if Text.isBlank c then [' ']
  else [c]

/-- The number of terminal columns that are taken by what is shown for a character in a column. -/
def shownWidth (column : Nat) (c : Char) : Nat :=
  if c == '\t' then 4 - column % 4
  else if Text.isBlank c then 1
  else Text.columnsOf c

/-- The number of terminal columns of each of the first `count` columns of a line; a column after
the characters that are shown takes one. -/
def widths (line : SourceLine) (count : Nat) : List Nat :=
  let known := (line.visible.take count).zipIdx.map (fun (c, column) => shownWidth column c)
  known ++ List.replicate (count - known.length) 1

end SourceLine

/-- A labelled range of characters and the message for it. -/
structure Label where
  start : Nat
  stop : Nat
  message : String

namespace Label

/-- The last line that begins at or before the label, with its number from one on. -/
def lineOf (label : Label) (lines : List SourceLine) : Nat × SourceLine :=
  match (lines.zipIdx.filter (fun l => l.1.start ≤ label.start)).getLast? with
  | some (line, index) => (index + 1, line)
  | none => (1, ⟨0, []⟩)

/-- Whether the label lies in a text of `size` characters. -/
def fits (label : Label) (size : Nat) : Bool :=
  !(size < label.start || (label.start < label.stop && size < label.stop - 1))

/-- The column in the middle of a label, from which the message hangs. -/
def middle (label : Label) (line : SourceLine) : Nat := (label.start + label.stop) / 2 - line.start

/-- Whether a column of a line is labelled. -/
def covers (label : Label) (line : SourceLine) (column : Nat) : Bool :=
  label.start ≤ line.start + column && line.start + column < label.stop

/-- The symbol of a row in a column, and the symbol that fills the rest of the column. -/
abbrev Symbols := Option String × Option String

/-- The row right under the line: the label underlined, and where the message hangs from. -/
def underline (label : Label) (line : SourceLine) (column : Nat) : Symbols :=
  if column = label.middle line then
    if label.covers line column then (some "┬", some "─") else (some "│", some " ")
  else if label.covers line column then (some "─", some "─")
  else (none, none)

/-- The row of the arrow that leads to the message. -/
def arrow (label : Label) (line : SourceLine) (column : Nat) : Symbols :=
  if column < label.middle line then (none, none)
  else if column = label.middle line then (some "╰", some "─")
  else (some "─", some "─")

/-- A symbol in the colour of labels, or a blank. -/
def cell : Option String → Piece
  | some symbol => .painted .label symbol
  | none => .bare " "

/-- The cells of a row, from its symbols. -/
def cells (label : Label) (line : SourceLine) (symbols : Nat → Symbols) : List Piece :=
  (line.widths (label.stop - line.start + 2)).zipIdx.flatMap fun (width, column) =>
    let (first, filler) := symbols column
    match width with
    | 0 => []
    | width + 1 => cell first :: List.replicate width (cell filler)

end Label

/-- The lines of an excerpt under the heading: where the label is, the line, the label and the
message. `origin` names the text. -/
def Label.excerpt (label : Label) (origin : String) (text : List Char) : List (List Piece) :=
  let (number, line) := label.lineOf (SourceLine.ofText text)
  let width := (toString number).length
  let outside := Piece.bare (Text.blanks (width + 2))
  let margin : List Piece :=
    [.bare " ", .painted .skippedMargin (Text.blanks (width + 1) ++ "│"), .bare " "]
  let place := " " ++ origin ++ ":" ++ toString number ++ ":" ++
    toString (label.start - line.start + 1) ++ " "
  let heading : List (List Piece) :=
    [[outside, .painted .margin "╭", .painted .margin "─", .painted .margin "[", .bare place,
        .painted .margin "]"],
      [outside, .painted .margin "│"]]
  let content : List (List Piece) :=
    if line.stop < label.stop then [margin]
    else
      [[.bare " ", .painted .margin (toString number ++ " │"), .bare " "] ++
          line.visible.zipIdx.flatMap (fun (c, column) =>
            let colour := if label.covers line column then Colour.label else .unlabelled
            (SourceLine.shown column c).map (fun d => .painted colour (String.singleton d))),
        margin ++ label.cells line (label.underline line),
        margin ++ label.cells line (label.arrow line) ++ [.bare (" " ++ label.message)]]
  let footing : List (List Piece) :=
    [[.painted .margin (String.ofList (List.replicate (width + 2) '─') ++ "╯")]]
  heading ++ content ++ footing

end TraceTree

set_option autoImplicit false

/-! # Painted text

Pieces of text that may have a colour. Written plainly, a piece is its text; written in colour, a
piece with a colour stands between the escape sequences of a terminal that switch the colour on
and off. So the coloured form of a text differs from the plain one only by escape sequences. -/

namespace TraceTree

/-- The colours of a report. -/
inductive Colour where
  | red
  | margin
  | skippedMargin
  | unlabelled
  | label
  deriving DecidableEq

/-- The number of a colour in an escape sequence. -/
def Colour.code : Colour → String
  | red => "31"
  | margin => "38;5;246"
  | skippedMargin => "38;5;240"
  | unlabelled => "38;5;249"
  | label => "38;5;155"

/-- A piece of text. -/
structure Piece where
  colour : Option Colour
  text : String

namespace Piece

/-- A piece without colour. -/
def bare (text : String) : Piece := ⟨none, text⟩

/-- A piece in a colour. -/
def painted (colour : Colour) (text : String) : Piece := ⟨some colour, text⟩

/-- A piece as it is written. -/
def write (inColour : Bool) (p : Piece) : String :=
  match p.colour with
  | some colour => if inColour then "\x1b[" ++ colour.code ++ "m" ++ p.text ++ "\x1b[0m" else p.text
  | none => p.text

end Piece

/-- Lines of pieces, each ended by a newline. -/
def writeLines (inColour : Bool) (lines : List (List Piece)) : String :=
  String.join (lines.map (fun line => String.join (line.map (·.write inColour)) ++ "\n"))

end TraceTree

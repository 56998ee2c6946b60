import TraceTree.Grammar.Pattern

set_option autoImplicit false

/-! # Places in a text

A cursor is a place in a text: how many bytes of its UTF-8 form lie before it, and the characters
after it. Offsets count bytes because that is how places are reported; the cursor moves by
characters, so an offset never falls inside one. -/

namespace TraceTree

/-- A half-open range of byte offsets. -/
structure Span where
  start : Nat
  stop : Nat
  deriving DecidableEq

/-- The characters inside a span, in a text whose first character begins at a byte offset. -/
def Span.sliceFrom (s : Span) (offset : Nat) : List Char → List Char
  | [] => []
  | c :: cs =>
    let inside := s.sliceFrom (offset + c.utf8Size) cs
    if s.start ≤ offset && offset < s.stop then c :: inside else inside

/-- The part of a text that a span covers. -/
def Span.slice (s : Span) (text : String) : String := String.ofList (s.sliceFrom 0 text.toList)

/-- A place in a text. -/
structure Cursor where
  /-- The number of bytes before this place. -/
  offset : Nat
  /-- The characters from this place on. -/
  rest : List Char

namespace Cursor

/-- The beginning of a text. -/
def ofText (text : List Char) : Cursor := ⟨0, text⟩

/-- Pass a character that satisfies `accepts`. -/
def char? (accepts : Char → Bool) (c : Cursor) : Option Cursor :=
  match c.rest with
  | [] => none
  | head :: tail => if accepts head then some ⟨c.offset + head.utf8Size, tail⟩ else none

/-- Pass the given characters. -/
def word? : List Char → Cursor → Option Cursor
  | [], c => some c
  | w :: ws, c => (c.char? (· == w)).bind (word? ws)

/-- The place after the blanks and comments that begin at `offset`. A comment goes from two
slashes to the end of its line; `inComment` says whether one is open. -/
def skipFrom (inComment : Bool) (offset : Nat) : List Char → Cursor
  | [] => ⟨offset, []⟩
  | c :: rest =>
    if inComment then skipFrom (c != '\n') (offset + c.utf8Size) rest
    else if isSpace c then skipFrom false (offset + c.utf8Size) rest
    else if c == '/' && rest.head? == some '/' then skipFrom true (offset + c.utf8Size) rest
    else ⟨offset, c :: rest⟩

/-- The next place where a token can begin. -/
def skip (c : Cursor) : Cursor := skipFrom false c.offset c.rest

/-- The characters between a place and a later one. -/
def upTo (c later : Cursor) : List Char := c.rest.take (c.rest.length - later.rest.length)

end Cursor

end TraceTree

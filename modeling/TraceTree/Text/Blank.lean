set_option autoImplicit false

/-! # Blanks

Which characters count as blank, and cutting them off a text.

A character is blank when it has the Unicode property `White_Space`. The property holds of 25
characters, so it is written out; the ASCII ones among them are a strict subset, and
`Char.isWhitespace` knows only four of these. All functions work on lists of characters; the
versions for strings stand at the end. -/

namespace TraceTree.Text

/-- Whether a character has the Unicode property `White_Space`. -/
def isBlank (c : Char) : Bool :=
  let n := c.toNat
  (0x9 ≤ n && n ≤ 0xd) || n == 0x20 || n == 0x85 || n == 0xa0 || n == 0x1680 ||
    (0x2000 ≤ n && n ≤ 0x200a) || n == 0x2028 || n == 0x2029 || n == 0x202f || n == 0x205f ||
    n == 0x3000

/-! ## Lists of characters -/

/-- The text without its leading blanks. -/
def trimLeft (cs : List Char) : List Char := cs.dropWhile isBlank

/-- The text without its trailing blanks. -/
def trimRight (cs : List Char) : List Char := (cs.reverse.dropWhile isBlank).reverse

/-- The text without its leading and trailing blanks. -/
def trimBoth (cs : List Char) : List Char := trimRight (trimLeft cs)

/-! ## Strings -/

/-- The string without its leading and trailing blanks. -/
def trim (s : String) : String := String.ofList (trimBoth s.toList)

/-- The string without its trailing blanks. -/
def trimEnd (s : String) : String := String.ofList (trimRight s.toList)

/-- Whether a string holds nothing but blanks. -/
def isBlankText (s : String) : Bool := s.toList.all isBlank

end TraceTree.Text

import TraceTree.Text.Property

set_option autoImplicit false

/-! # Quoted texts

A text between double quotes, written so that every character of it can be seen. The quote and
the backslash are escaped by a backslash; tab, newline, carriage return and the null character
have letters of their own; a character that has no glyph, that would attach to its neighbour or
that may be ignored in display is written as its code point in hexadecimal. -/

namespace TraceTree.Text

/-- The digits of a number in base sixteen, in lower case. -/
def hexadecimal (n : Nat) : List Char := Nat.toDigits 16 n

/-- One character as it stands inside a quoted text. -/
def escapeChar (c : Char) : List Char :=
  if c == '\x00' then ['\\', '0']
  else if c == '\t' then ['\\', 't']
  else if c == '\n' then ['\\', 'n']
  else if c == '\r' then ['\\', 'r']
  else if c == '\\' then ['\\', '\\']
  else if c == '"' then ['\\', '"']
  else if isExtender c || isIgnorable c || !isPrintable c then
    ['\\', 'u', '\x7b'] ++ hexadecimal c.toNat ++ ['\x7d']
  else [c]

/-- A text between quotes. -/
def quoted (s : String) : String :=
  String.ofList (['"'] ++ s.toList.flatMap escapeChar ++ ['"'])

end TraceTree.Text

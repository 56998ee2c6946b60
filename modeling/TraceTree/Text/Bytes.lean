set_option autoImplicit false

/-! # Cutting by bytes

Places in a text can be given by the number of bytes of its UTF-8 form that lie before them. Such a
number need not be a place between two characters, so cutting a text there can fail. -/

namespace TraceTree.Text

/-- The number of bytes of a text. -/
def byteCount : List Char → Nat
  | [] => 0
  | c :: cs => c.utf8Size + byteCount cs

/-- The characters before and behind a number of bytes, unless that falls inside a character or lies
behind the end. -/
def cutAt? : Nat → List Char → Option (List Char × List Char)
  | 0, cs => some ([], cs)
  | _ + 1, [] => none
  | n + 1, c :: cs =>
    if n + 1 < c.utf8Size then none
    else (cutAt? (n + 1 - c.utf8Size) cs).map (fun parts => (c :: parts.1, parts.2))

/-- The first number less the second, unless it is smaller. -/
def less? (a b : Nat) : Option Nat := if a < b then none else some (a - b)

/-- The characters between two numbers of bytes, unless a text cannot be cut there. -/
def slice? (start stop : Nat) (cs : List Char) : Option (List Char) := do
  let size ← less? stop start
  let (_, rest) ← cutAt? start cs
  let (part, _) ← cutAt? size rest
  return part

/-- The number of bytes before the first character that satisfies a test. -/
def findByte? (test : Char → Bool) : List Char → Option Nat
  | [] => none
  | c :: cs => if test c then some 0 else (findByte? test cs).map (c.utf8Size + ·)

end TraceTree.Text

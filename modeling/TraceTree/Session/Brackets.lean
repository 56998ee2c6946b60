set_option autoImplicit false

/-! # Open brackets

Whether a text typed so far is to be continued on the next line: it is while more braces and
parentheses have been opened than closed. Only the counts matter, so a closing bracket makes up
for any opening one, also for one that follows it. -/

namespace TraceTree.Brackets

/-- What a character adds to the number of open brackets. -/
def weight (c : Char) : Int :=
  if c == '\x7b' || c == '(' then 1 else if c == '\x7d' || c == ')' then -1 else 0

/-- Opening brackets less closing ones. -/
def balance (text : List Char) : Int := text.foldr (fun c n => weight c + n) 0

/-- The number of brackets left open, at least zero. -/
def openDepth (text : String) : Nat := (balance text.toList).toNat

/-- Whether a text needs no further line. -/
def isComplete (text : String) : Bool := openDepth text == 0

end TraceTree.Brackets

import TraceTree.Grammar.Rule

set_option autoImplicit false

/-! # Failed attempts

While a text is matched, the rules that failed at the furthest place reached are collected: if the
match fails as a whole, they are what was expected there.

A rule that fails takes the place of the attempts that its own parts made at the place where it
began, since it says more than they do; but if its parts left exactly one attempt, that one is kept
as the more precise report. -/

namespace TraceTree

/-- The rules that failed at the furthest place where any failed. -/
structure Attempts where
  offset : Nat
  rules : List Rule

namespace Attempts

/-- Nothing has failed yet. -/
def empty : Attempts := ⟨0, []⟩

/-- The number of attempts collected at an offset. -/
def countAt (a : Attempts) (offset : Nat) : Nat :=
  if offset = a.offset then a.rules.length else 0

/-- Take note that `r` failed at `offset`, where `before` attempts had been collected when `r`
began. -/
def record (a : Attempts) (r : Rule) (offset before : Nat) : Attempts :=
  if a.countAt offset = before + 1 then a
  else if offset = a.offset then ⟨offset, a.rules.take before ++ [r]⟩
  else if a.offset < offset then ⟨offset, [r]⟩
  else a

/-- The rules expected, each once and in the order of the grammar. -/
def expected (a : Attempts) : List Rule := Rule.all.filter (a.rules.contains ·)

/-- The names as a list in a sentence. -/
def enumerate : List String → String
  | [] => ""
  | [a] => a
  | [a, b] => a ++ " or " ++ b
  | names => String.intercalate ", " names.dropLast ++ ", or " ++ names.getLastD ""

/-- The message that lists what was expected. -/
def message : List String → String
  | [] => "unknown parsing error"
  | names => "expected " ++ enumerate names

end Attempts

end TraceTree

import TraceTree.Grammar.Cursor
import TraceTree.Grammar.Attempts

set_option autoImplicit false

/-! # Matching a text against the grammar

`Pattern.run` follows the structure of a pattern, given the meaning of the rules it mentions;
`Rule.run` gives a rule the meaning of its body, down to a given depth of rules inside rules. A
rule can only come back to itself after it has consumed a character, and only a bounded number of
other rules lie between, so `Rule.depthFor` is deep enough for every text: the outcome `exhausted`
does not occur there. -/

namespace TraceTree

/-- A rule, where it matched, the text it matched and the matches inside it. -/
inductive Pair where
  | mk (rule : Rule) (span : Span) (text : List Char) (children : List Pair)

namespace Pair

def rule : Pair → Rule
  | mk r _ _ _ => r

def span : Pair → Span
  | mk _ s _ _ => s

def text : Pair → List Char
  | mk _ _ t _ => t

def children : Pair → List Pair
  | mk _ _ _ cs => cs

mutual

/-- A pair and all pairs inside it, each with its depth. -/
def preorderFrom (depth : Nat) : Pair → List (Nat × Pair)
  | mk r s t cs => (depth, mk r s t cs) :: preorderAll (depth + 1) cs

/-- The pairs of a list and all pairs inside them, each with its depth. -/
def preorderAll (depth : Nat) : List Pair → List (Nat × Pair)
  | [] => []
  | p :: ps => preorderFrom depth p ++ preorderAll depth ps

end

end Pair

/-- What comes of matching at a place. -/
inductive Outcome where
  /-- The pairs made, the place after the match, and what failed on the way. -/
  | matched (pairs : List Pair) (next : Cursor) (attempts : Attempts)
  /-- No match. -/
  | failed (attempts : Attempts)
  /-- The bound on the depth or on the length of a repetition was met. -/
  | exhausted

namespace Outcome

/-- Put pairs in front of those of a match. -/
def prepend (pairs : List Pair) : Outcome → Outcome
  | matched more next a => matched (pairs ++ more) next a
  | other => other

end Outcome

/-- Repeat `step` until it fails, at most `limit` times. -/
def repeatStep (step : Cursor → Attempts → Outcome) : Nat → Cursor → Attempts → Outcome
  | 0, _, _ => .exhausted
  | limit + 1, c, a =>
    match step c a with
    | .matched pairs next a' => (repeatStep step limit next a').prepend pairs
    | .failed a' => .matched [] c a'
    | .exhausted => .exhausted

/-- Match a pattern at a place. `call` is the meaning of the rules; `atomic` says whether blanks
between the parts of a sequence count. -/
def Pattern.run (call : Rule → Bool → Cursor → Attempts → Outcome) (atomic : Bool) :
    Pattern → Cursor → Attempts → Outcome
  | .start, c, a => if c.offset = 0 then .matched [] c a else .failed a
  | .finish, c, a => if c.rest.isEmpty then .matched [] c a else .failed a
  | .char accepts, c, a =>
    match c.char? accepts with
    | some next => .matched [] next a
    | none => .failed a
  | .word chars, c, a =>
    match c.word? chars with
    | some next => .matched [] next a
    | none => .failed a
  | .rule r, c, a => call r atomic c a
  | .seq first second, c, a =>
    match first.run call atomic c a with
    | .matched pairs next a' =>
      (second.run call atomic (if atomic then next else next.skip) a').prepend pairs
    | other => other
  | .choice first second, c, a =>
    match first.run call atomic c a with
    | .failed a' => second.run call atomic c a'
    | other => other
  | .maybe p, c, a =>
    match p.run call atomic c a with
    | .failed a' => .matched [] c a'
    | other => other
  | .many p, c, a =>
    match p.run call atomic c a with
    | .matched pairs next a' =>
      (repeatStep (fun d => p.run call atomic (if atomic then d else d.skip))
        (next.rest.length + 1) next a').prepend pairs
    | .failed a' => .matched [] c a'
    | .exhausted => .exhausted
  | .unless p, c, a =>
    match p.run call atomic c a with
    | .matched _ _ _ => .failed a
    | .failed _ => .matched [] c a
    | .exhausted => .exhausted

/-- Match a rule at a place, with at most `depth` rules inside one another. -/
def Rule.run : Nat → Rule → Bool → Cursor → Attempts → Outcome
  | 0, _, _, _, _ => .exhausted
  | depth + 1, r, atomic, c, a =>
    match r.body.run (Rule.run depth) (atomic || r.isAtomic) c a with
    | .matched pairs next a' =>
      if atomic || r.isSilent then .matched pairs next a'
      else .matched [.mk r ⟨c.offset, next.offset⟩ (c.upTo next) pairs] next a'
    | .failed a' =>
      if atomic || r.isSilent then .failed a'
      else .failed (a'.record r c.offset (a.countAt c.offset))
    | .exhausted => .exhausted

/-- A depth of rules inside rules that no match in the text exceeds. -/
def Rule.depthFor (text : List Char) : Nat := 16 * (text.length + 1)

/-- Match a rule at the beginning of a text. -/
def Rule.recognise (r : Rule) (text : List Char) : Outcome :=
  r.run (Rule.depthFor text) false (Cursor.ofText text) Attempts.empty

end TraceTree

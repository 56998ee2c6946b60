import TraceTree.Grammar.Pattern
import TraceTree.Text.Blank
import TraceTree.Text.Bytes

set_option autoImplicit false

/-! # Highlighting a line

A line is cut into tokens, each token gets a class, and neighbouring tokens without a class of
their own are put together. A name reaches as far as it can, a number as far as its digits; every
other character is a token by itself. A command at the beginning of a line is not looked into.

The texts of the runs, put together, are the line. They are cut out of it by numbers of bytes, from
left to right (`cut?`), which is never done inside a character and gives the same runs. -/

namespace TraceTree.Highlight

/-- What a run of characters is. -/
inductive TokenClass where
  | plain
  | command
  | keyword
  | constant
  | number
  | operator
  deriving DecidableEq

namespace TokenClass

/-- The colour of a class. -/
def colour : TokenClass → String
  | plain => "white"
  | command => "blue"
  | keyword => "magenta"
  | constant | number => "cyan"
  | operator => "yellow"

/-- Whether a class is shown in bold. -/
def isBold : TokenClass → Bool
  | command => true
  | _ => false

end TokenClass

/-- A run of characters of one class. -/
structure Run where
  type : TokenClass
  text : List Char
  deriving DecidableEq

/-- Which characters continue a token that begins with `c`. -/
def continues (c : Char) : Char → Bool :=
  if isNameStart c then isNameChar else if isDigit c then isDigit else fun _ => false

/-- The tokens of a text. -/
def tokens : List Char → List (List Char)
  | [] => []
  | c :: cs => (c :: cs.takeWhile (continues c)) :: tokens (cs.dropWhile (continues c))
termination_by cs => cs.length
decreasing_by
  exact Nat.lt_succ_of_le (List.dropWhile_sublist _).length_le

/-- The words that begin or shape a statement or expression. -/
def keywords : List (List Char) :=
  ["fn".toList, "let".toList, "if".toList, "else".toList, "return".toList]

/-- The characters that are operators or parts of them. -/
def operators : List Char := ['+', '-', '*', '/', '!', '<', '>', '=']

/-- The class of a token. -/
def classOf (token : List Char) : TokenClass :=
  if keywords.contains token then .keyword
  else if token == "true".toList || token == "false".toList then .constant
  else
    match token with
    | [] => .plain
    | c :: more =>
      if isDigit c then .number
      else if more.isEmpty && operators.contains c then .operator
      else .plain

/-- Put a run in front of others; plain runs join. -/
def join (run : Run) : List Run → List Run
  | next :: more =>
    if run.type = .plain ∧ next.type = .plain then ⟨.plain, run.text ++ next.text⟩ :: more
    else run :: next :: more
  | [] => [run]

/-- The runs of a text that is no command. -/
def runsOf (text : List Char) : List Run :=
  (tokens text).foldr (fun token runs => join ⟨classOf token, token⟩ runs) []

/-- The runs of a line. -/
def classify (line : List Char) : List Run :=
  match line with
  | ':' :: rest =>
    ⟨.command, ':' :: rest.takeWhile (fun c => !Text.isBlank c)⟩ ::
      runsOf (rest.dropWhile (fun c => !Text.isBlank c))
  | line => runsOf line

/-! ## Cutting a line -/

/-- A line that is being cut: the runs so far, the last one first, and what is left. -/
structure Sweep where
  runs : List Run
  rest : List Char

/-- The number of bytes of the token that a text begins with, if `first` is its first character. -/
def tokenSize (first : Char) (text : List Char) : Nat :=
  if isNameStart first then
    (Text.findByte? (fun c => !isNameChar c) text).getD (Text.byteCount text)
  else if isDigit first then
    (Text.findByte? (fun c => !isDigit c) text).getD (Text.byteCount text)
  else first.utf8Size

/-- A run cut out of the line anew, with the token behind it: from where the run began to the end of
the token. What is left before and after the token is `rest` and `tail`. -/
def regrow? (line rest tail run : List Char) : Option (List Char) := do
  let stop ← Text.less? (Text.byteCount line) (Text.byteCount rest)
  let start ← Text.less? stop (Text.byteCount run)
  let finish ← Text.less? (Text.byteCount line) (Text.byteCount tail)
  Text.slice? start finish line

/-- Cut off the token that begins with `first`. A plain token makes the run before it grow if that
is plain. -/
def Sweep.next? (line : List Char) (s : Sweep) (first : Char) : Option Sweep := do
  let (token, tail) ← Text.cutAt? (tokenSize first s.rest) s.rest
  let type := classOf token
  match s.runs with
  | [] => return ⟨[⟨type, token⟩], tail⟩
  | last :: before =>
    if last.type = type ∧ type = .plain then
      let text ← regrow? line s.rest tail last.text
      return ⟨⟨last.type, text⟩ :: before, tail⟩
    else return ⟨⟨type, token⟩ :: last :: before, tail⟩

/-- Cut off tokens until nothing is left, at most `limit` of them. -/
def Sweep.run? (line : List Char) : Nat → Sweep → Option (List Run)
  | _, ⟨runs, []⟩ => some runs.reverse
  | 0, ⟨_, _ :: _⟩ => none
  | limit + 1, ⟨runs, c :: cs⟩ => do
    let s ← Sweep.next? line ⟨runs, c :: cs⟩ c
    s.run? line limit

/-- Cut a line into its runs, each by numbers of bytes. -/
def cut? (line : List Char) : Option (List Run) :=
  match line with
  | ':' :: command => do
    let stop := (Text.findByte? Text.isBlank command).getD (Text.byteCount command) + 1
    let name ← Text.slice? 0 stop line
    let rest ← Text.slice? stop (Text.byteCount line) line
    Sweep.run? line line.length ⟨[⟨.command, name⟩], rest⟩
  | line => Sweep.run? line line.length ⟨[], line⟩

end TraceTree.Highlight

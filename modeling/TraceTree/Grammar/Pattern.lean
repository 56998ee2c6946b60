import TraceTree.Grammar.Rule

set_option autoImplicit false

/-! # The grammar

A grammar gives each rule a pattern. Choice is ordered and repetition is greedy, so a pattern
matches in at most one way. The grammar of the language describes an expression as a flat sequence
of operands and operators; which operator binds tighter is decided later (`Formula`). -/

namespace TraceTree

/-- What a rule matches. -/
inductive Pattern where
  /-- The beginning of the text. -/
  | start
  /-- The end of the text. -/
  | finish
  /-- One character that satisfies a test. -/
  | char (accepts : Char → Bool)
  /-- The given characters. -/
  | word (chars : List Char)
  /-- What the rule matches. -/
  | rule (r : Rule)
  /-- The first pattern, blanks, the second pattern. -/
  | seq (first second : Pattern)
  /-- The first pattern, or else the second. -/
  | choice (first second : Pattern)
  /-- The pattern or nothing. -/
  | maybe (p : Pattern)
  /-- The pattern as often as it matches. -/
  | many (p : Pattern)
  /-- Nothing, where the pattern does not match. -/
  | unless (p : Pattern)

namespace Pattern

/-- The patterns one after the other. -/
def inOrder : Pattern → List Pattern → Pattern
  | p, [] => p
  | p, q :: more => .seq p (inOrder q more)

/-- The first of the patterns that matches. -/
def oneOf : Pattern → List Pattern → Pattern
  | p, [] => p
  | p, q :: more => .choice p (oneOf q more)

/-- The pattern one or more times. -/
def atLeastOnce (p : Pattern) : Pattern := .seq p (.many p)

/-- A literal text. -/
def text (s : String) : Pattern := .word s.toList

end Pattern

/-! ## Classes of characters -/

/-- A character that separates tokens. -/
def isSpace (c : Char) : Bool := c == ' ' || c == '\t' || c == '\r' || c == '\n'

/-- A digit from 0 to 9. -/
def isDigit (c : Char) : Bool := '0' ≤ c && c ≤ '9'

/-- A character that can begin a name: an ASCII letter or the underscore. -/
def isNameStart (c : Char) : Bool :=
  ('a' ≤ c && c ≤ 'z') || ('A' ≤ c && c ≤ 'Z') || c == '_'

/-- A character that can continue a name: an ASCII letter, a digit or the underscore. -/
def isNameChar (c : Char) : Bool := isNameStart c || isDigit c

/-! ## The rules -/

namespace Rule

open Pattern

/-- A word that is not the beginning of a longer name. -/
def reserved (s : String) : Pattern := .seq (text s) (.unless (.rule identChar))

/-- What each rule of the grammar matches. -/
def body : Rule → Pattern
  | endOfInput => .finish
  | whitespace => .char isSpace
  | comment => .seq (text "//") (.many (.seq (.unless (text "\n")) (.char (fun _ => true))))
  | program => inOrder .start [.many (.rule statement), .rule endOfInput]
  | statementInput => inOrder .start [.rule statement, .rule endOfInput]
  | expressionInput => inOrder .start [.rule expression, .maybe (text ";"), .rule endOfInput]
  | statement => oneOf (.rule letStatement) [.rule returnStatement, .rule expressionStatement]
  | letStatement =>
    inOrder (.rule kwLet) [.rule identifier, text "=", .rule expression, .maybe (text ";")]
  | returnStatement => inOrder (.rule kwReturn) [.rule expression, .maybe (text ";")]
  | expressionStatement => .seq (.rule expression) (.maybe (text ";"))
  | block => inOrder (text "\x7b") [.many (.rule statement), text "\x7d"]
  | expression => .seq (.rule operand) (.many (.seq (.rule infixOperator) (.rule operand)))
  | operand =>
    inOrder (.many (.rule prefixOperator)) [.rule primary, .many (.rule postfixOperator)]
  | prefixOperator => oneOf (.rule bang) [.rule neg]
  | bang => text "!"
  | neg => text "-"
  | infixOperator =>
    oneOf (.rule eq)
      [.rule notEq, .rule lt, .rule gt, .rule add, .rule sub, .rule mul, .rule div]
  | eq => text "=="
  | notEq => text "!="
  | lt => text "<"
  | gt => text ">"
  | add => text "+"
  | sub => text "-"
  | mul => text "*"
  | div => text "/"
  | postfixOperator => .rule callArgs
  | callArgs =>
    inOrder (text "(")
      [.maybe (.seq (.rule expression) (.many (.seq (text ",") (.rule expression)))), text ")"]
  | primary =>
    oneOf (.rule integer)
      [.rule boolean, .rule ifExpression, .rule functionLiteral, .rule identifier,
        inOrder (text "(") [.rule expression, text ")"]]
  | ifExpression =>
    inOrder (.rule kwIf)
      [.rule expression, .rule block, .maybe (.seq (.rule kwElse) (.rule block))]
  | functionLiteral =>
    inOrder (.rule kwFn) [text "(", .rule parameters, text ")", .rule block]
  | parameters => .maybe (.seq (.rule identifier) (.many (.seq (text ",") (.rule identifier))))
  | integer => atLeastOnce (.char isDigit)
  | boolean => .seq (oneOf (text "true") [text "false"]) (.unless (.rule identChar))
  | identifier =>
    inOrder (.unless (.rule keyword)) [.char isNameStart, .many (.rule identChar)]
  | identChar => .char isNameChar
  | keyword =>
    .seq
      (oneOf (text "let")
        [text "return", text "fn", text "if", text "else", text "true", text "false"])
      (.unless (.rule identChar))
  | kwLet => reserved "let"
  | kwReturn => reserved "return"
  | kwFn => reserved "fn"
  | kwIf => reserved "if"
  | kwElse => reserved "else"

end Rule

end TraceTree

set_option autoImplicit false

/-! # Rules of the grammar

The names of the grammar's rules. A rule has a bare name, which a listing of matched rules shows,
and a label, which an error message for a reader shows; several rules share one label. The order
of `Rule.all` is the order in which an error message lists what was expected. -/

namespace TraceTree

/-- The rules of the grammar. -/
inductive Rule where
  | endOfInput
  | whitespace
  | comment
  | program
  | statementInput
  | expressionInput
  | statement
  | letStatement
  | returnStatement
  | expressionStatement
  | block
  | expression
  | operand
  | prefixOperator
  | bang
  | neg
  | infixOperator
  | eq
  | notEq
  | lt
  | gt
  | add
  | sub
  | mul
  | div
  | postfixOperator
  | callArgs
  | primary
  | ifExpression
  | functionLiteral
  | parameters
  | integer
  | boolean
  | identifier
  | identChar
  | keyword
  | kwLet
  | kwReturn
  | kwFn
  | kwIf
  | kwElse
  deriving DecidableEq

namespace Rule

/-- All rules, in the order in which messages list them. -/
def all : List Rule :=
  [.endOfInput, .whitespace, .comment, .program, .statementInput, .expressionInput, .statement,
    .letStatement, .returnStatement, .expressionStatement, .block, .expression, .operand,
    .prefixOperator, .bang, .neg, .infixOperator, .eq, .notEq, .lt, .gt, .add, .sub, .mul, .div,
    .postfixOperator, .callArgs, .primary, .ifExpression, .functionLiteral, .parameters, .integer,
    .boolean, .identifier, .identChar, .keyword, .kwLet, .kwReturn, .kwFn, .kwIf, .kwElse]

theorem mem_all (r : Rule) : r ∈ all := by
  cases r <;> decide

/-- The bare name of a rule. -/
def name : Rule → String
  | endOfInput => "EOI"
  | whitespace => "WHITESPACE"
  | comment => "COMMENT"
  | program => "program"
  | statementInput => "statement_input"
  | expressionInput => "expression_input"
  | statement => "statement"
  | letStatement => "let_statement"
  | returnStatement => "return_statement"
  | expressionStatement => "expression_statement"
  | block => "block"
  | expression => "expression"
  | operand => "operand"
  | prefixOperator => "prefix"
  | bang => "bang"
  | neg => "neg"
  | infixOperator => "infix"
  | eq => "eq"
  | notEq => "not_eq"
  | lt => "lt"
  | gt => "gt"
  | add => "add"
  | sub => "sub"
  | mul => "mul"
  | div => "div"
  | postfixOperator => "postfix"
  | callArgs => "call_args"
  | primary => "primary"
  | ifExpression => "if_expression"
  | functionLiteral => "function_literal"
  | parameters => "parameters"
  | integer => "integer"
  | boolean => "boolean"
  | identifier => "identifier"
  | identChar => "ident_char"
  | keyword => "keyword"
  | kwLet => "kw_let"
  | kwReturn => "kw_return"
  | kwFn => "kw_fn"
  | kwIf => "kw_if"
  | kwElse => "kw_else"

/-- The rule of a given bare name. -/
def ofName? (s : String) : Option Rule := all.find? (fun r => r.name == s)

/-- What a message for a reader calls a rule. -/
def label : Rule → String
  | endOfInput => "end of input"
  | expression => "expression"
  | letStatement | returnStatement | expressionStatement => "statement"
  | block => "block"
  | identifier => "identifier"
  | integer => "integer"
  | boolean => "boolean"
  | callArgs => "argument list"
  | parameters => "parameter list"
  | ifExpression => "if expression"
  | functionLiteral => "function literal"
  | bang | neg => "prefix operator"
  | eq | notEq | lt | gt | add | sub | mul | div => "infix operator"
  | kwLet => "`let`"
  | kwReturn => "`return`"
  | kwFn => "`fn`"
  | kwIf => "`if`"
  | kwElse => "`else`"
  | keyword => "keyword"
  | _ => "input"

/-- A silent rule stands for its body: it yields no pair of its own and is never reported. -/
def isSilent : Rule → Bool
  | whitespace | comment | statement | operand | prefixOperator | infixOperator
  | postfixOperator | primary | identChar => true
  | _ => false

/-- Within an atomic rule no blanks are skipped, no pairs are made and no failures are recorded. -/
def isAtomic : Rule → Bool
  | whitespace | comment | integer | boolean | identifier | keyword
  | kwLet | kwReturn | kwFn | kwIf | kwElse => true
  | _ => false

end Rule

end TraceTree

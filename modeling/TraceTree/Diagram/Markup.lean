import TraceTree.Text.Split
import TraceTree.Trace.Basic

set_option autoImplicit false

/-! # Markups

The two ways in which diagrams are written. Both enclose a subtree in brackets after its label;
they differ in how annotations, labels and leaves are spelled. `plain` is Unicode text for a
terminal; `qtree` is LaTeX for the package `tikz-qtree`, where characters with a meaning in LaTeX
have to be escaped. -/

namespace TraceTree

/-- A way of writing diagrams. -/
inductive Markup where
  | plain
  | qtree
  deriving DecidableEq

namespace Markup

/-! ## Texts -/

/-- One character of a text in LaTeX. -/
def escapeLatex (c : Char) : List Char :=
  if c == '\\' then "\\textbackslash\x7b\x7d".toList
  else if c == '\x7b' || c == '\x7d' || c == '$' || c == '&' || c == '#' || c == '_' || c == '%' then
    ['\\', c]
  else if c == '^' then "\\^\x7b\x7d".toList
  else if c == '~' then "\\~\x7b\x7d".toList
  else if c == '<' then "$<$".toList
  else if c == '>' then "$>$".toList
  else [c]

/-- A text from the source or from a message, made safe. -/
def text : Markup → String → String
  | plain, raw => raw
  | qtree, raw => String.ofList (raw.toList.flatMap escapeLatex)

/-- An operator, made safe. -/
def operator : Markup → String → String
  | plain, op => op
  | qtree, op =>
    if op == "<" then "$<$"
    else if op == ">" then "$>$"
    else if op == "!=" then "$\\neq$"
    else if op == "-" then "$-$"
    else if op == "+" then "$+$"
    else if op == "*" then "$\\ast$"
    else qtree.text op

/-- A digit or minus sign below the line. -/
def lowered (c : Char) : Char :=
  if c == '-' then '₋'
  else if '0' ≤ c && c ≤ '9' then Char.ofNat (0x2080 + (c.toNat - '0'.toNat))
  else '₀'

/-- A number in decimal digits. Numbers have 64 bits, of which the first is the sign. -/
def digits (n : Int) : String := toString (Int64.ofInt n).toInt

/-- A number below the line. -/
def subscriptDigits (n : Int) : String := String.ofList ((digits n).toList.map lowered)

/-! ## Annotations and labels -/

/-- The mark, before a label, that a node was entered. -/
def entry (m : Markup) (step : Nat) (scope : ScopeNumber) : String :=
  match m with
  | plain => toString step ++ ",e" ++ subscriptDigits scope.toInt ++ "↓ "
  | qtree => toString step ++ ",e$_\x7b" ++ digits scope.toInt ++ "\x7d\\downarrow$ "

/-- The mark, after a label, that a node was left. -/
def exit (m : Markup) (step : Nat) (scope : ScopeNumber) : String :=
  match m with
  | plain => " ↑" ++ toString step ++ ",e" ++ subscriptDigits scope.toInt
  | qtree => " $\\uparrow$" ++ toString step ++ ",e$_\x7b" ++ digits scope.toInt ++ "\x7d$"

/-- The label of a field. -/
def field : Markup → String → String
  | plain, name => name ++ ":"
  | qtree, name => "\\textit\x7b" ++ qtree.text name ++ "\x7d"

/-- An emphasised label. -/
def strong : Markup → String → String
  | plain, label => label
  | qtree, label => "\\textbf\x7b" ++ label ++ "\x7d"

/-- The number of a value, after its label. -/
def subscript : Markup → Nat → String
  | plain, n => subscriptDigits n
  | qtree, n => "$_\x7b" ++ toString n ++ "\x7d$"

/-- The label of the edge to the subtree that follows. -/
def edge : Markup → String → String
  | plain, label => "<" ++ label ++ ">"
  | qtree, label => "\\edge node[auto=left]\x7b\\tiny " ++ label ++ "\x7d;"

/-- A short text that hangs under a label. -/
def roof : Markup → String → String
  | plain, content => "\x7b" ++ content ++ "\x7d"
  | qtree, content => "\\edge[roof]; \x7b\\small " ++ content ++ "\x7d"

/-- A break within a text. -/
def lineBreak : Markup → String
  | plain => " / "
  | qtree => "\\\\"

/-- What stands for an absent node or value. -/
def missing : Markup → String
  | plain => "∅"
  | qtree => "$\\emptyset$"

/-- What stands for a value that is being drawn further up. -/
def cycle : Markup → String
  | plain => "…"
  | qtree => "\\ldots"

/-- The beginning of a subtree. -/
def opening (label : String) : String := "[.\x7b" ++ label ++ "\x7d"

/-- The message of a fault as one leaf: names of types are shortened, and colons become breaks. -/
def messageLeaf (m : Markup) (message : String) : String :=
  let short := Text.replaceAll "BOOLEAN" "BOOL" (Text.replaceAll "INTEGER" "INT" message)
  m.lineBreak.intercalate ((Text.splitAt ':' short).map (fun part => m.text (Text.trim part)))

/-! ## Whole trees -/

/-- A finished tree. -/
def tree : Markup → String → String
  | plain, body => body ++ "\n"
  | qtree, body => "\\Tree" ++ body ++ "\n"

/-- A document for LaTeX that consists of one tree. -/
def document (tree : String) : String :=
  "\\documentclass[tikz,border=10pt]\x7bstandalone\x7d\n" ++
  "\\usepackage\x7btikz-qtree\x7d\n" ++
  "\\begin\x7bdocument\x7d\n" ++
  "\\begin\x7btikzpicture\x7d[level distance=40pt]\n" ++
  tree ++
  "\\end\x7btikzpicture\x7d\n" ++
  "\\end\x7bdocument\x7d\n"

end Markup

end TraceTree

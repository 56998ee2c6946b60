import TraceTree.Diagram.Basic
import TraceTree.Diagram.Markup

set_option autoImplicit false

/-! # Writing diagrams

A diagram is laid out as lines, each subtree indented by two blanks more than the line that opens
it. The line that closes a subtree is a bracket, indented like the line that opened it; short forms
open and close on one line. -/

namespace TraceTree.Diagram

/-- The blanks before a line at a depth. -/
def indent (depth : Nat) : String := Text.blanks (2 * depth)

/-- The label of a value. -/
def valueLabel (m : Markup) (v : Value) (number : Option Nat) : String :=
  let label := m.strong (m.text v.type.name)
  match number with
  | none => label
  | some n => label ++ m.subscript n

/-- The label of a node: its entries, its kind, its exits. -/
def nodeLabel (m : Markup) (origin : Node) (entries exits : List Visit) : String :=
  String.join (entries.map (fun v => m.entry v.step v.scope)) ++ m.text origin.typeName ++
    String.join (exits.map (fun v => m.exit v.step v.scope))

/-- A subtree on one line. -/
def onOneLine (label content : String) : String := Markup.opening label ++ " " ++ content ++ " ]"

/-- A truth value or null as one word. -/
def constantWord : Value → String
  | .boolean _ true => "TRUE"
  | .boolean _ false => "FALSE"
  | _ => "NULL"

/-- A reference to a value drawn before; an integer is shown again. -/
def referenceText (m : Markup) (v : Value) (number : Nat) : String :=
  match v with
  | .integer _ n => onOneLine (valueLabel m v (some number)) (m.roof (toString n.toInt))
  | _ => valueLabel m v (some number)

mutual

/-- The lines of a diagram at a depth. -/
def lines (m : Markup) (depth : Nat) : Diagram → List String
  | node origin entries exits parts =>
    (indent depth ++ Markup.opening (nodeLabel m origin entries exits)) ::
      (linesAll m (depth + 1) parts ++ [indent depth ++ "]"])
  | field name parts =>
    (indent depth ++ Markup.opening (m.field name)) ::
      (linesAll m (depth + 1) parts ++ [indent depth ++ "]"])
  | result step drawing =>
    (indent depth ++ m.edge ("Val " ++ toString step)) :: lines m depth drawing
  | text content => [indent depth ++ m.text content]
  | operator spelling => [indent depth ++ m.operator spelling]
  | message content => [indent depth ++ "\x7b" ++ content ++ "\x7d"]
  | missing => [indent depth ++ m.missing]
  | value v number parts =>
    (indent depth ++ Markup.opening (valueLabel m v number)) ::
      (linesAll m (depth + 1) parts ++ [indent depth ++ "]"])
  | constant v => [indent depth ++ m.strong (constantWord v)]
  | fault v number content =>
    [indent depth ++ onOneLine (valueLabel m v number) (m.roof (m.messageLeaf content))]
  | cycle v number => [indent depth ++ onOneLine (valueLabel m v number) m.cycle]
  | reference v number => [indent depth ++ referenceText m v number]

/-- The lines of several diagrams at one depth. -/
def linesAll (m : Markup) (depth : Nat) : List Diagram → List String
  | [] => []
  | d :: ds => lines m depth d ++ linesAll m depth ds

end

/-- A diagram as a finished tree. -/
def write (m : Markup) (d : Diagram) : String := m.tree ("\n".intercalate (d.lines m 0))

end TraceTree.Diagram

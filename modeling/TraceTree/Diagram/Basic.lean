import TraceTree.Trace.Basic

set_option autoImplicit false

/-! # Diagrams

A diagram is an annotated syntax tree, before it is written in any markup. It shows a node with the
steps at which it was entered and left, the fields of the node, and the values that its exits left.
A value is drawn in full, or as a short form of itself: a constant, the message of a fault, a mark
that it is being drawn further up, or a reference to where it was drawn before. Values used in
several places are numbered. -/

namespace TraceTree

/-- How much detail drawn values carry: from one on, truth values, null and faults are single
leaves; from two on, values used in several places are drawn once and referred to afterwards. -/
structure Verbosity where
  level : Nat
  deriving DecidableEq

namespace Verbosity

/-- Whether truth values, null and faults are drawn as single leaves. -/
def collapsesLeaves (v : Verbosity) : Bool := 1 ≤ v.level

/-- Whether a value used in several places is drawn only once. -/
def sharesValues (v : Verbosity) : Bool := 2 ≤ v.level

end Verbosity

/-- A step at which a node was entered or left, and the number of the scope. -/
structure Visit where
  step : Nat
  scope : ScopeNumber

/-- An annotated syntax tree. -/
inductive Diagram where
  /-- A node, its entries and exits, and its fields followed by the results of the exits. -/
  | node (origin : Node) (entries exits : List Visit) (parts : List Diagram)
  /-- A named field. -/
  | field (name : String) (parts : List Diagram)
  /-- The value that the exit at a step left. -/
  | result (step : Nat) (drawing : Diagram)
  /-- A name or literal. -/
  | text (content : String)
  /-- An operator. -/
  | operator (spelling : String)
  /-- A message, written as it is. -/
  | message (content : String)
  /-- What stands for an absent node or value. -/
  | missing
  /-- A value in full, with its number if it is used in several places. -/
  | value (v : Value) (number : Option Nat) (parts : List Diagram)
  /-- A truth value or null as a single leaf. -/
  | constant (v : Value)
  /-- A fault as a single leaf. -/
  | fault (v : Value) (number : Option Nat) (content : String)
  /-- A function that is being drawn further up. -/
  | cycle (v : Value) (number : Option Nat)
  /-- A value that was drawn before. -/
  | reference (v : Value) (number : Nat)

end TraceTree

import TraceTree.Value.Basic

set_option autoImplicit false

/-! # Traces

A trace lists the events of an evaluation: each evaluated node is entered before its evaluation
and left once it has a value. Entries and exits share one count, so the step of an event is its
position. The scopes that occur in the events are numbered in the order in which they first
occur. -/

namespace TraceTree

/-- One step of an evaluation. -/
inductive Event where
  /-- The evaluation of a node in a scope begins. -/
  | entry (step : Nat) (node : Node) (scope : ScopeId)
  /-- The evaluation of a node in a scope ends; a statement may leave no value. -/
  | exit (step : Nat) (node : Node) (scope : ScopeId) (value : Option Value)

namespace Event

/-- The position of an event in its trace. -/
def step : Event → Nat
  | entry step _ _ | exit step _ _ _ => step

/-- The node that is entered or left. -/
def node : Event → Node
  | entry _ node _ | exit _ node _ _ => node

/-- The scope in which the node is evaluated. -/
def scope : Event → ScopeId
  | entry _ _ scope | exit _ _ scope _ => scope

/-- Whether an event is an entry. -/
def isEntry : Event → Bool
  | entry _ _ _ => true
  | exit _ _ _ _ => false

/-- The value that an exit leaves. -/
def value? : Event → Option Value
  | entry _ _ _ => none
  | exit _ _ _ value => value

/-- Whether an event leaves this very value. -/
def produces (value : Value) (e : Event) : Bool :=
  match e.value? with
  | some v => v.is value
  | none => false

end Event

/-- The number of a scope in a trace: its position among the scopes in the order of their first
occurrence. A scope that does not occur has no number. -/
abbrev ScopeNumber := Option Nat

/-- The number of a scope for display; minus one stands for none. -/
def ScopeNumber.toInt (n : ScopeNumber) : Int :=
  match n with
  | some position => position
  | none => -1

/-- The events of an evaluation, the scopes in them in the order of their first occurrence, and for
each of these the step at which it first occurred. -/
structure Trace where
  events : Array Event
  scopes : Array ScopeId
  firstSeen : Array Nat

namespace Trace

/-- A trace with no events. -/
def empty : Trace := ⟨#[], #[], #[]⟩

/-- The number of events. -/
def steps (t : Trace) : Nat := t.events.size

/-- Take note of a scope at the coming step. -/
def observe (t : Trace) (scope : ScopeId) : Trace :=
  if t.scopes.contains scope then t
  else { t with scopes := t.scopes.push scope, firstSeen := t.firstSeen.push t.steps }

/-- Record that a node is entered. -/
def enter (t : Trace) (node : Node) (scope : ScopeId) : Trace :=
  let t := t.observe scope
  { t with events := t.events.push (.entry t.steps node scope) }

/-- Record that a node is left with a value. -/
def exit (t : Trace) (node : Node) (scope : ScopeId) (value : Option Value) : Trace :=
  let t := t.observe scope
  { t with events := t.events.push (.exit t.steps node scope value) }

/-- The number of a scope. -/
def scopeNumber (t : Trace) (scope : ScopeId) : ScopeNumber := t.scopes.idxOf? scope

/-- The entry at a step. -/
def entryAt? (t : Trace) (step : Nat) : Option Event := t.events[step]?.filter (·.isEntry)

/-- The exit at a step. -/
def exitAt? (t : Trace) (step : Nat) : Option Event := t.events[step]?.filter (!·.isEntry)

/-- The number of entries. -/
def entryCount (t : Trace) : Nat := t.events.countP (·.isEntry)

/-- The node that is entered first. -/
def root? (t : Trace) : Option Node := (t.entryAt? 0).map (·.node)

/-- The beginning of a trace, up to and including a step. -/
def upTo (t : Trace) (step : Nat) : Trace :=
  let stop := min (step + 1) t.steps
  let kept := (t.firstSeen.toList.takeWhile (· < stop)).length
  ⟨t.events.take stop, t.scopes.take kept, t.firstSeen.take kept⟩

end Trace

end TraceTree

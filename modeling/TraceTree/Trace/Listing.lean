import TraceTree.Trace.Basic
import TraceTree.Text.Split

set_option autoImplicit false

/-! # The listing of a trace

One line per event: the step, an arrow down for an entry or up for an exit, the number of the
scope, the kind of the node, and the node entered or the value left. Texts of several lines are
folded into one, so the lines of the listing are the events. -/

namespace TraceTree

/-- The line of an event, without its end; `width` is that of the largest step. -/
def Event.line (t : Trace) (width : Nat) (e : Event) : String :=
  let head := Text.padLeft width (toString e.step) ++ (if e.isEntry then " ↓ e" else " ↑ e") ++
    toString (t.scopeNumber e.scope).toInt ++ " " ++ e.node.typeName
  match e with
  | .entry _ node _ => head ++ ": " ++ Text.oneLine node.text
  | .exit _ _ _ none => head
  | .exit _ _ _ (some value) => head ++ " => " ++ Text.oneLine value.text

/-- The lines of all events, each ended by a newline. -/
def Trace.listing (t : Trace) : String :=
  let width := (toString (t.steps - 1)).length
  String.join (t.events.toList.map (fun e => e.line t width ++ "\n"))

end TraceTree

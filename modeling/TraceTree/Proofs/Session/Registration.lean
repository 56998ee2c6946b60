import TraceTree.Proofs.Session.Handling

set_option autoImplicit false

/-! # Registering commands

Names are registered for commands one after the other, each at most once. A command is listed when
it is the first one that is registered with its action; from then on every name that is registered
with this action stands for it. So all that a set of commands holds follows from the calls that were
granted (`CommandSet.Keeps`), and these are the first ones with each name: however aliases, names
that are taken and commands that do the same come after one another, the listed commands do
different things and the position kept for a name is that of a listed command. -/

namespace TraceTree

/-! ## The first elements with each key -/

section Firsts

variable {α β : Type} [DecidableEq β]

/-- The elements that share their key with no earlier one. -/
def firstsBy (key : α → β) : List α → List α
  | [] => []
  | a :: more => a :: (firstsBy key more).filter (fun b => key b ≠ key a)

variable {key : α → β} {as : List α} {k : β}

end Firsts

namespace CommandSet

variable {set changed : CommandSet} {name : String} {command : Command}
variable {calls granted : List (String × Command)}

/-! ## One call -/

/-- All that a set holds follows from the calls that were granted. -/
structure Keeps (set : CommandSet) (granted : List (String × Command)) : Prop where
  listed : set.commands.toList = firstsBy (·.action) (granted.map (·.2))
  positions : set.positions = granted.map fun call =>
    (call.1, set.commands.toList.findIdx fun listed => listed.action == call.2.action)

namespace Keeps

theorem names (h : set.Keeps granted) : set.names = granted.map (·.1) := by
  simp [CommandSet.names, h.positions]

end Keeps

/-! ## What is shown -/

/-- What a table shows of a command, in columns of the given widths. -/
def block (first second : Nat) (command : Command) : String :=
  String.join ((usageRows command).map (Table.line first second))

end CommandSet

/-! ## Any sequence of calls -/

/-- A set of commands, and the calls that it granted. -/
structure Registry where
  granted : List (String × Command)
  set : CommandSet

namespace Registry

variable {calls : List (String × Command)}

/-- Make a call. -/
def call (r : Registry) (c : String × Command) : Registry :=
  match CommandSet.enter c.1 c.2 r.set with
  | (.ok (), set) => ⟨r.granted ++ [c], set⟩
  | (.error _, set) => ⟨r.granted, set⟩

/-- Make some calls, one after the other, beginning with no commands. -/
def after (calls : List (String × Command)) : Registry := calls.foldl call ⟨[], .empty⟩

theorem after_concat (calls : List (String × Command)) (c : String × Command) :
    after (calls ++ [c]) = (after calls).call c := by
  simp [after]

end Registry

end TraceTree

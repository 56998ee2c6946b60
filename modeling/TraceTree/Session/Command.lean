import TraceTree.Session.Settings

set_option autoImplicit false

/-! # Commands

Commands are looked up by name; a command can have several names. Two names stand for one command
when they stand for one action: registering a name with an action that is already listed makes it
another name of the command listed first. -/

namespace TraceTree

/-- What a command does. -/
inductive Action where
  | help
  | quit
  | list
  | clear
  | clearScreen
  | paste
  | expression
  | statement
  | program
  | parse
  | parseTree
  | eval
  | type
  | trace
  | evalTree
  | settings
  | set
  | unset
  | reset
  deriving DecidableEq

/-- A command. Each line of its usage is what follows the name and what it does then. -/
structure Command where
  name : String
  action : Action
  usage : List (String × String)
  deriving DecidableEq

/-- Commands in the order of registration, and for each name the position of its command. -/
structure CommandSet where
  positions : List (String × Nat)
  commands : Array Command

namespace CommandSet

/-- No commands. -/
def empty : CommandSet := ⟨[], #[]⟩

/-- The position of the command of a name. -/
def position? (set : CommandSet) (name : String) : Option Nat := set.positions.lookup name

/-- The command of a name. -/
def get? (set : CommandSet) (name : String) : Option Command :=
  (set.position? name).bind (set.commands[·]?)

/-- All names, in the order of registration. -/
def names (set : CommandSet) : List String := set.positions.map (·.1)

/-- Register a name for a command, if the name is free. -/
def register? (set : CommandSet) (name : String) (command : Command) : Option CommandSet :=
  if (set.position? name).isSome then none
  else
    match set.commands.findIdx? (fun listed => listed.action == command.action) with
    | some index => some { set with positions := set.positions ++ [(name, index)] }
    | none =>
      some ⟨set.positions ++ [(name, set.commands.size)], set.commands.push command⟩

/-- The lines of usage of a command; only the first one shows its name. -/
def usageRows (command : Command) : List Row :=
  match command.usage with
  | [] => [⟨command.name, "", "no usage message provided"⟩]
  | (arguments, message) :: more =>
    ⟨command.name, arguments, message⟩ :: more.map (fun line => ⟨"", line.1, line.2⟩)

/-- The usage of the command of a name. -/
def usage? (set : CommandSet) (name : String) : Option String :=
  (set.get? name).map (fun command => Table.render none (usageRows command))

/-- The usage of all commands. -/
def menu (set : CommandSet) : String :=
  Table.render (some ⟨"Name", "", "Usage"⟩) (set.commands.toList.flatMap usageRows)

/-! ## The commands of a session -/

/-- The commands of a session, each with its names. The first name is the one shown. -/
def standardCommands : List (List String × Action × List (String × String)) :=
  [(["help", "h"], .help,
      [("~", "list all commands with usage"),
        ("~ <cmd>", "print usage of command <cmd>")]),
    (["quit", "q"], .quit, [("~", "quit the session")]),
    (["list", "l"], .list,
      [("~", "list all identifiers in the environment with types and values")]),
    (["clear", "c"], .clear, [("~", "clear the environment")]),
    (["clearscreen", "cl"], .clearScreen, [("~", "clear the terminal screen")]),
    (["paste"], .paste,
      [("~", "read multiline input until a blank line"),
        ("~ <input>", "start multiline input with <input>")]),
    (["expression", "expr"], .expression,
      [("~ <input>", "expect <input> to be an expression")]),
    (["statement", "stmt"], .statement, [("~ <input>", "expect <input> to be a statement")]),
    (["program", "prog"], .program, [("~ <input>", "expect <input> to be a program")]),
    (["parse", "p"], .parse,
      [("~ <input>", "print the string form of the ast <input> parses to")]),
    (["parsetree", "ptree"], .parseTree,
      [("~ <input>", "print the tree of <input>'s ast to all set displays")]),
    (["eval", "e"], .eval, [("~ <input>", "print the value <input> evaluates to")]),
    (["type", "t"], .type, [("~ <input>", "show the type of the value <input> evaluates to")]),
    (["trace", "tr"], .trace,
      [("~ <input>", "show the evaluation trace of <input> step by step")]),
    (["evaltree", "etree"], .evalTree,
      [("~ <input>", "print the annotated tree of <input>'s ast to all set displays")]),
    (["settings"], .settings,
      [("~", "list all settings with their current and default values")]),
    (["set"], .set,
      [("~ prompt <prompt>", "set prompt string to <prompt>"),
        ("~ level <l>", "<l> must be: p[rogram], s[tatement], e[xpression]"),
        ("~ process <p>",
          "<p> must be: p[arse], p[arse]tree, e[val], e[val]tree, [t]ype, [tr]ace"),
        ("~ displays <+|-d_0...+|-d_n>", "<d_i> must be: c[ons[ole]], p[df]"),
        ("~ verbosity <v>", "<v> must be 0, 1, 2"),
        ("~ pfile <f>", "set file for parsetree to <f>"),
        ("~ efile <f>", "set file for evaltree to <f>")]),
    (["unset"], .unset, [("~ <display>", "switch <display> off")]),
    (["reset"], .reset,
      [("~", "reset all settings"), ("~ <setting>", "set <setting> to its default value")])]

/-- Register a command under several names; names that are taken are left alone. -/
def registerAll (set : CommandSet) (names : List String) (command : Command) : CommandSet :=
  names.foldl (fun s name => (s.register? name command).getD s) set

/-- The command set of a session. -/
def standard : CommandSet :=
  standardCommands.foldl
    (fun set (names, action, usage) =>
      set.registerAll names ⟨names.headD "", action, usage⟩)
    empty

end CommandSet

end TraceTree

import TraceTree.Session.Basic

set_option autoImplicit false

/-! # The command line

Reading the arguments of the program, and running it on a given standard input. With an expression
among the arguments a session handles that one line; without one it handles the lines of the
standard input until it quits. -/

namespace TraceTree.CommandLine

/-- What the arguments ask for beside the default settings. -/
structure Options where
  verbosity : Option Verbosity
  level : Option Level
  process : Option InputProcess
  pdf : Option String
  expression : Option String

/-- Nothing is asked for. -/
def Options.none : Options := ⟨.none, .none, .none, .none, .none⟩

/-- The settings that the options ask for. -/
def Options.settings (o : Options) : Settings :=
  let s := Settings.default
  let s := { s with
    verbosity := o.verbosity.getD s.verbosity
    level := o.level.getD s.level
    process := o.process.getD s.process }
  match o.pdf with
  | .none => s
  | some file => { s with displays := s.displays.switch .pdf true, pfile := file, efile := file }

/-- The options that take a value. -/
inductive OptionName where
  | verbosity
  | level
  | process
  | pdf
  deriving DecidableEq

/-- The option of a given name. -/
def OptionName.ofName? (name : String) : Option OptionName :=
  if name == "verbosity" then some .verbosity
  else if name == "level" then some .level
  else if name == "process" then some .process
  else if name == "pdf" then some .pdf
  else none

/-- Why arguments are rejected. -/
inductive ArgumentError where
  | unexpected (argument : String)
  | missingValue (option : String)
  | repeated (option : String)
  | invalidValue (message : String)

/-- The wording of a rejection. -/
def ArgumentError.message : ArgumentError → String
  | unexpected argument => "error: unexpected argument '" ++ argument ++ "' found"
  | missingValue option => "error: a value is required for '--" ++ option ++ "'"
  | repeated option => "error: the argument '--" ++ option ++ "' cannot be used multiple times"
  | invalidValue message => "error: " ++ message

/-- What the arguments ask for. -/
inductive Request where
  | help
  | run (options : Options)

/-- An option's value, read by `read`, unless the option has one already. -/
def once {α : Type} (name : String) (old : Option α) (read : Except SettingsError α) :
    Except ArgumentError (Option α) :=
  match old, read with
  | some _, _ => .error (.repeated name)
  | .none, .ok value => .ok (some value)
  | .none, .error e => .error (.invalidValue e.message)

/-- Give an option its value. -/
def Options.give (o : Options) (option : OptionName) (value : String) :
    Except ArgumentError Options :=
  match option with
  | .verbosity =>
    (once "verbosity" o.verbosity (Verbosity.read value)).map fun v => { o with verbosity := v }
  | .level => (once "level" o.level (Level.read value)).map fun l => { o with level := l }
  | .process => (once "process" o.process (InputProcess.read value)).map fun p => { o with process := p }
  | .pdf =>
    if value == "" then .error (.missingValue "pdf")
    else (once "pdf" o.pdf (.ok value)).map fun f => { o with pdf := f }

/-- Take an argument that is no option. -/
def Options.giveExpression (o : Options) (argument : String) : Except ArgumentError Options :=
  match o.expression with
  | some _ => .error (.unexpected argument)
  | .none => .ok { o with expression := some argument }

/-- Whether an argument is an option rather than a value. -/
def isOption (argument : String) : Bool := argument.startsWith "-" && argument != "-"

/-- The name and the value, if it has one, of a long option without its dashes. -/
def nameAndValue (option : List Char) : String × Option String :=
  let name := String.ofList (option.takeWhile (· != '='))
  match option.dropWhile (· != '=') with
  | [] => (name, .none)
  | _ :: value => (name, some (String.ofList value))

/-- Read arguments, where `awaiting` is an option that still needs a value and `plain` says that
the arguments are no options any more. -/
def readArguments (o : Options) (awaiting : Option (String × OptionName)) (plain : Bool) :
    List String → Except ArgumentError Request
  | [] =>
    match awaiting with
    | some (name, _) => .error (.missingValue name)
    | .none => .ok (.run o)
  | argument :: more =>
    if plain then
      match awaiting with
      | some (name, _) => .error (.missingValue name)
      | .none => do
        let o' ← o.giveExpression argument
        readArguments o' .none true more
    else
      match awaiting with
      | some (name, option) =>
        if isOption argument then .error (.missingValue name)
        else do
          let o' ← o.give option argument
          readArguments o' .none false more
      | .none =>
        if argument == "--" then readArguments o .none true more
        else
          match argument.toList with
          | '-' :: '-' :: long =>
            let (name, value) := nameAndValue long
            match OptionName.ofName? name, value with
            | some option, some value => do
              let o' ← o.give option value
              readArguments o' .none false more
            | some option, .none => readArguments o (some (name, option)) false more
            | .none, .none => if name == "help" then .ok .help else .error (.unexpected argument)
            | .none, some _ => .error (.unexpected argument)
          | '-' :: 'h' :: _ => .ok .help
          | '-' :: _ :: _ => .error (.unexpected argument)
          | _ => do
            let o' ← o.giveExpression argument
            readArguments o' .none false more

/-- Read the arguments of the program. -/
def read (arguments : List String) : Except ArgumentError Request :=
  readArguments .none .none false arguments

/-- The explanation of the arguments. -/
def usage : String :=
  "Evaluate Monkey programs and draw their evaluation trees\n" ++
  "\n" ++
  "Usage: evaltree [OPTIONS] [EXPRESSION]\n" ++
  "\n" ++
  "Arguments:\n" ++
  "  [EXPRESSION]  Input to run (if not provided, starts a session on stdin)\n" ++
  "\n" ++
  "Options:\n" ++
  "      --verbosity <VERBOSITY>  " ++
  "Tree verbosity: 0 expands every value, 1 collapses leaves, 2 also shares values\n" ++
  "      --level <LEVEL>          " ++
  "Grammar level of the input: program, statement or expression\n" ++
  "      --process <PROCESS>      " ++
  "What plain input is run through: parse, parsetree, eval, evaltree, type, trace\n" ++
  "      --pdf <PDF>              Also write LaTeX trees to this file\n" ++
  "  -h, --help                   Print help\n"

/-! ## Running -/

/-- The lines of an input. A newline ends a line, together with a carriage return before it; what
follows the last newline is a line if it is not empty. -/
def linesOf (input : String) : List String :=
  let pieces := Text.splitAll (· == '\n') input.toList
  let whole := pieces.dropLast.map fun piece =>
    if piece.getLast? == some '\r' then piece.dropLast else piece
  let last := pieces.getLastD []
  (if last.isEmpty then whole else whole ++ [last]).map String.ofList

/-- Handle lines until the session quits. What is written beside the output says why lines
failed. -/
def handleLines (s : Session) (errors : String) : List String → Session × String
  | [] => (s, errors)
  | line :: more =>
    match s.handle line with
    | (.ok .quit, s') => (s', errors)
    | (.ok .proceed, s') => handleLines s' errors more
    | (.error e, s') => handleLines s' (errors ++ e.message ++ "\n") more

/-- What a run of the program leaves. -/
structure Exit where
  code : Nat
  output : String
  errors : String
  files : List (String × String)

/-- Run the program with given arguments on a given standard input, neither of them a terminal. -/
def run (arguments : List String) (input : String) : Exit :=
  match read arguments with
  | .error e => ⟨2, "", e.message ++ "\n", []⟩
  | .ok .help => ⟨0, usage, "", []⟩
  | .ok (.run o) =>
    let s := Session.new o.settings false
    match o.expression with
    | some line =>
      match s.handle line with
      | (.ok _, s') => ⟨0, s'.output, "", s'.disk.files⟩
      | (.error e, s') => ⟨1, s'.output, "Error: " ++ e.message ++ "\n", s'.disk.files⟩
    | .none =>
      let (s', errors) := handleLines s "" (linesOf input)
      ⟨0, s'.output, errors, s'.disk.files⟩

end TraceTree.CommandLine

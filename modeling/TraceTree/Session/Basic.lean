import TraceTree.Diagram.Drawing
import TraceTree.Report.Basic
import TraceTree.Session.Command
import TraceTree.Session.Disk
import TraceTree.Trace.Listing
import TraceTree.Workspace

set_option autoImplicit false

/-! # Sessions

A session handles one line of input after another. A line that begins with a colon is a command;
any other line is input, which is run through the configured process at the configured level.
After `paste`, lines are collected up to a blank line and run as one input.

What a session does is a step on its state: settings, commands, the workspace with the global
bindings, the files written, the lines being collected, and the output so far. A step that fails
says why and keeps what it did before it failed. -/

namespace TraceTree

/-- Whether a session goes on. -/
inductive Flow where
  | proceed
  | quit
  deriving DecidableEq

/-- Why a line cannot be handled. -/
inductive CommandError where
  | alreadyDefined (name : String)
  | unknown (name : String)
  | missingInput (command : String)
  | settings (error : SettingsError)
  | disk (error : DiskError)
  deriving DecidableEq

/-- The wording of a failure. -/
def CommandError.message : CommandError → String
  | alreadyDefined name => "command " ++ name ++ " has already been defined"
  | unknown name => "unknown command '" ++ name ++ "', try :help"
  | missingInput command => "command " ++ command ++ " expects an input"
  | settings error => error.message
  | disk error => error.message

/-- Register a name for a command, unless the name is taken. -/
def CommandSet.register (set : CommandSet) (name : String) (command : Command) :
    Except CommandError CommandSet :=
  match set.register? name command with
  | some set' => .ok set'
  | none => .error (.alreadyDefined name)

/-- Register a name for a command in a set that is kept. A name that is taken is refused before
anything is changed. -/
def CommandSet.enter (name : String) (command : Command) :
    ExceptT CommandError (StateM CommandSet) Unit := do
  if ((← get).position? name).isSome then
    throw (.alreadyDefined name)
  let index ←
    match (← get).commands.findIdx? (fun listed => listed.action == command.action) with
    | some index => pure index
    | none => do
      modify (fun set => { set with commands := set.commands.push command })
      pure ((← get).commands.size - 1)
  modify (fun set => { set with positions := set.positions ++ [(name, index)] })

/-- The state of a session. -/
structure Session where
  workspace : Workspace
  settings : Settings
  commands : CommandSet
  disk : Disk
  /-- Whether reports are written in colour. -/
  inColour : Bool
  /-- The lines collected by `paste`, while it collects. -/
  paste : Option String
  output : String

/-- A step of a session. -/
abbrev Act := ExceptT CommandError (StateM Session)

namespace Session

/-- A new session. -/
def new (settings : Settings) (inColour : Bool) : Session where
  workspace := .empty
  settings := settings
  commands := .standard
  disk := .empty
  inColour := inColour
  paste := none
  output := ""

/-- Whether lines are being collected. -/
def isPasting (s : Session) : Bool := s.paste.isSome

/-- What asks for the next line. -/
def prompt (s : Session) : String := if s.isPasting then "..." else s.settings.prompt

end Session

namespace Act

/-- Write to the output. -/
def write (text : String) : Act Unit := modify fun s => { s with output := s.output ++ text }

/-- Report a failed run. -/
def report (failure : Failure) (source : String) : Act Unit := do
  let s ← get
  write (failure.report source s.inColour)

/-- Send a tree to every display that is on. -/
def display (file : String) (render : Markup → String) : Act Unit := do
  let s ← get
  if s.settings.displays.console then
    write (render .plain)
  if s.settings.displays.pdf then
    match s.disk.write file (Markup.document (render .qtree)) with
    | .ok disk => do
      modify fun s => { s with disk := disk }
      write ("wrote " ++ file ++ "\n")
    | .error e => throw (.disk e)

/-- Run a process that only reads the input. -/
def processSyntax (level : Level) (input : String) (use : Parsed → Act Unit) : Act Unit := do
  let s ← get
  match s.workspace.parse input level with
  | .error e => report (.parse e) input
  | .ok parsed => use parsed

/-- Run a process that evaluates the input. -/
def processRun (level : Level) (input : String) (use : Option Value → Trace → Act Unit) :
    Act Unit := do
  let s ← get
  let (outcome, workspace) := s.workspace.run input level defaultLimit true
  set { s with workspace := workspace }
  match outcome with
  | .error e => report (.parse e) input
  | .ok run =>
    match run.outcome with
    | .error o => report (.overflow o) input
    | .ok value => use value run.trace

/-- Run an input through a process. -/
def process (process : InputProcess) (level : Level) (input : String) : Act Unit := do
  match process with
  | .parse => processSyntax level input fun parsed => write (parsed.root.text ++ "\n")
  | .parseTree =>
    processSyntax level input fun parsed => do
      let s ← get
      display s.settings.pfile (parsed.root.syntaxTree s.settings.verbosity)
  | .eval =>
    processRun level input fun value _ =>
      match value with
      | some v => write (v.text ++ "\n")
      | none => pure ()
  | .type =>
    processRun level input fun value _ =>
      match value with
      | some v => write (v.type.name ++ "\n")
      | none => write "NONE\n"
  | .trace => processRun level input fun _ trace => write trace.listing
  | .evalTree =>
    processRun level input fun _ trace => do
      let s ← get
      display s.settings.efile (Scene.evaluationTree ⟨s.workspace.heap, trace, s.settings.verbosity⟩)

/-- Run an input through the configured process at the configured level. -/
def runInput (input : String) : Act Unit := do
  let s ← get
  process s.settings.process s.settings.level input

/-- The line that lists a binding. -/
def bindingLine (name : String) (value : Value) : String :=
  name ++ ": " ++ value.type.name ++ " = " ++ Text.replaceAll "\n" " " value.text ++ "\n"

/-- List the global bindings. -/
def list : Act Unit := do
  let s ← get
  write (String.join (s.workspace.bindings.map (fun b => bindingLine b.1 b.2)))

/-- Change the settings. -/
def changeSettings (change : Settings → Settings.Change) : Act Unit := do
  let s ← get
  let (result, settings) := change s.settings
  set { s with settings := settings }
  match result with
  | .ok () => pure ()
  | .error e => throw (.settings e)

/-- Write the usage of all commands, or of one. -/
def help (rest : String) : Act Unit := do
  let s ← get
  if rest == "" then write s.commands.menu
  else
    let name := String.ofList (rest.toList.dropWhile (· == ':'))
    match s.commands.usage? name with
    | some usage => write usage
    | none => throw (.unknown name)

/-- Do something with the input of a command, which must not be empty. -/
def withInput (command : Command) (rest : String) (use : String → Act Unit) : Act Unit :=
  if rest == "" then throw (.missingInput command.name) else use rest

/-- Carry out a command on the text that follows its name. -/
def command (command : Command) (rest : String) : Act Flow := do
  let atLevel (level : Level) : Act Unit := withInput command rest fun input => do
    let s ← get
    process s.settings.process level input
  let through (p : InputProcess) : Act Unit := withInput command rest fun input => do
    let s ← get
    process p s.settings.level input
  match command.action with
  | .quit => return .quit
  | .help => help rest
  | .list => list
  | .clear => modify fun s => { s with workspace := s.workspace.cleared }
  | .clearScreen => write "\x1b[2J\x1b[H"
  | .paste => modify fun s => { s with paste := some (if rest == "" then "" else rest ++ "\n") }
  | .expression => atLevel .expression
  | .statement => atLevel .statement
  | .program => atLevel .program
  | .parse => through .parse
  | .parseTree => through .parseTree
  | .eval => through .eval
  | .type => through .type
  | .trace => through .trace
  | .evalTree => through .evalTree
  | .settings => do
    let s ← get
    write (Table.render (some ⟨"Setting", "Current", "Default"⟩) s.settings.rows)
  | .set => withInput command rest fun input =>
    let words := Text.words input
    changeSettings (fun s => s.set (words.headD "") words.tail)
  | .unset => withInput command rest fun input => changeSettings (fun s => s.unset input)
  | .reset => changeSettings (fun s => s.reset (if rest == "" then none else some rest))
  return .proceed

/-- Carry out a command line, which is given without its colon. -/
def commandLine (line : List Char) : Act Flow := do
  let name := String.ofList (line.takeWhile (fun c => !Text.isBlank c))
  let rest := Text.trim (String.ofList (line.dropWhile (fun c => !Text.isBlank c)))
  let s ← get
  match s.commands.get? name with
  | none => throw (.unknown name)
  | some c => command c rest

/-- Take a line while lines are being collected in `buffer`. -/
def collect (buffer line : String) : Act Flow := do
  if Text.isBlankText line then
    modify fun s => { s with paste := none }
    if !Text.isBlankText buffer then
      runInput buffer
  else
    modify fun s => { s with paste := some (buffer ++ line ++ "\n") }
  return .proceed

/-- Handle a line. -/
def handle (line : String) : Act Flow := do
  let s ← get
  match s.paste with
  | some buffer => collect buffer line
  | none =>
    match Text.trimBoth line.toList with
    | [] => return .proceed
    | ':' :: rest => commandLine rest
    | input => do
      runInput (String.ofList input)
      return .proceed

end Act

namespace Session

/-- Handle a line: whether the session goes on, unless the line fails, and the session
afterwards. -/
def handle (s : Session) (line : String) : Except CommandError Flow × Session :=
  Act.handle line s

end Session

end TraceTree

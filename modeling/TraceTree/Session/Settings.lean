import TraceTree.Diagram.Basic
import TraceTree.Session.Table
import TraceTree.Syntax.Reader
import TraceTree.Text.Quoted

set_option autoImplicit false

/-! # Settings

What a session can be configured to do. Settings are changed by name: `set` gives a setting a
value, `unset` switches a display off, `reset` restores a default. A change that fails says why; of
several displays named in one `set`, those before the first that fails are switched all the
same. -/

namespace TraceTree

/-! ## Values of settings -/

/-- What plain input is run through. -/
inductive InputProcess where
  | parse
  | parseTree
  | eval
  | evalTree
  | type
  | trace
  deriving DecidableEq

/-- The name of a process. -/
def InputProcess.name : InputProcess → String
  | parse => "parse"
  | parseTree => "parsetree"
  | eval => "eval"
  | evalTree => "evaltree"
  | type => "type"
  | trace => "trace"

/-- The name of a level. -/
def Level.name : Level → String
  | program => "program"
  | statement => "statement"
  | expression => "expression"

/-- Where drawn trees are sent. -/
structure Displays where
  console : Bool
  pdf : Bool
  deriving DecidableEq

/-- The displays that are on. -/
def Displays.text (d : Displays) : String :=
  match d.console, d.pdf with
  | true, true => "console, pdf"
  | true, false => "console"
  | false, true => "pdf"
  | false, false => "none"

/-- One of the displays. -/
inductive Display where
  | console
  | pdf
  deriving DecidableEq

/-- The display of a given name, in any case of letters. -/
def Display.ofName? (name : String) : Option Display :=
  let name := name.toLower
  if name == "c" || name == "cons" || name == "console" then some .console
  else if name == "p" || name == "pdf" then some .pdf
  else none

/-- Switch a display on or off. -/
def Displays.switch (d : Displays) (display : Display) (on : Bool) : Displays :=
  match display with
  | .console => { d with console := on }
  | .pdf => { d with pdf := on }

/-! ## Failures -/

/-- The settings. -/
inductive Setting where
  | prompt
  | level
  | process
  | verbosity
  | displays
  | pfile
  | efile
  deriving DecidableEq

namespace Setting

/-- The name of a setting. -/
def name : Setting → String
  | prompt => "prompt"
  | level => "level"
  | process => "process"
  | verbosity => "verbosity"
  | displays => "displays"
  | pfile => "pfile"
  | efile => "efile"

/-- All settings, in the order in which they are listed. -/
def all : List Setting := [prompt, level, process, verbosity, displays, pfile, efile]

/-- The setting of a given name, in any case of letters. -/
def ofName? (text : String) : Option Setting := all.find? (fun s => s.name == text.toLower)

end Setting

/-- Why settings cannot be changed as asked. -/
inductive SettingsError where
  | unknown (name : String)
  | missingValue (setting : Setting)
  | invalidLevel (text : String)
  | invalidProcess (text : String)
  | invalidVerbosity (text : String)
  | invalidDisplay (text : String)
  | notUnsettable (name : String)
  deriving DecidableEq

/-- The wording of a failure. -/
def SettingsError.message : SettingsError → String
  | unknown name => "unknown setting '" ++ name ++ "'"
  | missingValue setting => "setting '" ++ setting.name ++ "' needs a value"
  | invalidLevel text =>
    "invalid level '" ++ text ++ "': must be p[rogram], s[tatement], e[xpression]"
  | invalidProcess text =>
    "invalid process '" ++ text ++
      "': must be p[arse], p[arse]tree, e[val], e[val]tree, [t]ype, [tr]ace"
  | invalidVerbosity text => "invalid verbosity '" ++ text ++ "': must be 0, 1, 2"
  | invalidDisplay text =>
    "invalid display '" ++ text ++ "': must be +|-c[ons[ole]] or +|-p[df]"
  | notUnsettable name => "setting '" ++ name ++ "' cannot be unset"

/-! ## Reading values -/

/-- The level of a given name, whole or by its first letter. -/
def Level.read (text : String) : Except SettingsError Level :=
  let name := text.toLower
  if name == "p" || name == "program" then .ok .program
  else if name == "s" || name == "statement" then .ok .statement
  else if name == "e" || name == "expression" then .ok .expression
  else .error (.invalidLevel text)

/-- The process of a given name, whole or shortened. -/
def InputProcess.read (text : String) : Except SettingsError InputProcess :=
  let name := text.toLower
  if name == "p" || name == "parse" then .ok .parse
  else if name == "ptree" || name == "parsetree" then .ok .parseTree
  else if name == "e" || name == "eval" then .ok .eval
  else if name == "etree" || name == "evaltree" then .ok .evalTree
  else if name == "t" || name == "type" then .ok .type
  else if name == "tr" || name == "trace" then .ok .trace
  else .error (.invalidProcess text)

/-- The verbosity that a text names: a number up to two in decimal digits, which may be preceded by
a plus sign and by zeros. -/
def Verbosity.read (text : String) : Except SettingsError Verbosity :=
  let digits :=
    match text.toList with
    | '+' :: digits => digits
    | digits => digits
  if !digits.isEmpty && digits.all isDigit && decimalValue digits ≤ 2 then
    .ok ⟨decimalValue digits⟩
  else .error (.invalidVerbosity text)

/-! ## Paths -/

/-- The parts of a path between slashes. An empty part means nothing, nor does a dot after the
first part. -/
def pathParts (path : String) : List String :=
  let isRooted := path.startsWith "/"
  let parts := (Text.splitAt '/' path).filter (fun part => part != "")
  let named := parts.filter (fun part => part != ".")
  if isRooted then "/" :: named
  else if parts.head? == some "." then "." :: named
  else named

/-! ## Settings -/

/-- The configuration of a session. -/
structure Settings where
  prompt : String
  level : Level
  process : InputProcess
  verbosity : Verbosity
  displays : Displays
  pfile : String
  efile : String
  deriving DecidableEq

namespace Settings

/-- The settings to begin with. -/
def default : Settings where
  prompt := ">> "
  level := .program
  process := .eval
  verbosity := ⟨0⟩
  displays := ⟨true, false⟩
  pfile := "parsetree.tex"
  efile := "evaltree.tex"

/-- Whether settings are the ones to begin with; paths count by their parts. -/
def isDefault (s : Settings) : Bool :=
  { s with pfile := default.pfile, efile := default.efile } == default &&
    pathParts s.pfile == pathParts default.pfile && pathParts s.efile == pathParts default.efile

/-- A change of settings: whether it succeeded, and the settings afterwards. -/
abbrev Change := Except SettingsError Unit × Settings

/-- A change that gives a setting a value, if there is one. -/
def store {α : Type} (s : Settings) (value : Except SettingsError α) (put : α → Settings) :
    Change :=
  match value with
  | .ok a => (.ok (), put a)
  | .error e => (.error e, s)

/-- Switch a display as an argument says: on, unless the name comes after a minus sign. -/
def toggleDisplay (s : Settings) (argument : String) : Change :=
  let (on, name) :=
    match argument.toList with
    | '+' :: rest => (true, String.ofList rest)
    | '-' :: rest => (false, String.ofList rest)
    | _ => (true, argument)
  match Display.ofName? name with
  | some display => (.ok (), { s with displays := s.displays.switch display on })
  | none => (.error (.invalidDisplay argument), s)

/-- Switch displays in order, until one is invalid. -/
def toggleDisplays (s : Settings) : List String → Change
  | [] => (.ok (), s)
  | argument :: more =>
    match s.toggleDisplay argument with
    | (.ok (), s') => s'.toggleDisplays more
    | failed => failed

/-- Give a setting a value. -/
def setTo (s : Settings) (setting : Setting) (value : String) : Change :=
  match setting with
  | .prompt => (.ok (), { s with prompt := Text.trimEnd value ++ " " })
  | .level => s.store (Level.read value) (fun l => { s with level := l })
  | .process => s.store (InputProcess.read value) (fun p => { s with process := p })
  | .verbosity => s.store (Verbosity.read value) (fun v => { s with verbosity := v })
  | .displays => s.toggleDisplays [value]
  | .pfile => (.ok (), { s with pfile := value })
  | .efile => (.ok (), { s with efile := value })

/-- Give the setting of a name a value, which is made of the arguments. The displays are switched
by one argument each. -/
def set (s : Settings) (name : String) (arguments : List String) : Change :=
  match Setting.ofName? name with
  | none => (.error (.unknown name), s)
  | some setting =>
    if arguments.isEmpty then (.error (.missingValue setting), s)
    else if setting = .displays then s.toggleDisplays arguments
    else s.setTo setting (" ".intercalate arguments)

/-- Switch a display off. -/
def unset (s : Settings) (name : String) : Change :=
  match Display.ofName? name with
  | some display => (.ok (), { s with displays := s.displays.switch display false })
  | none =>
    if (Setting.all.map Setting.name).contains name then (.error (.notUnsettable name), s)
    else (.error (.unknown name), s)

/-- Restore the default of one setting. -/
def resetOne (s : Settings) : Setting → Settings
  | .prompt => { s with prompt := default.prompt }
  | .level => { s with level := default.level }
  | .process => { s with process := default.process }
  | .verbosity => { s with verbosity := default.verbosity }
  | .displays => { s with displays := default.displays }
  | .pfile => { s with pfile := default.pfile }
  | .efile => { s with efile := default.efile }

/-- Restore the default of the setting of a name, or of all settings. -/
def reset (s : Settings) (name : Option String) : Change :=
  match name with
  | none => (.ok (), default)
  | some name =>
    match Setting.ofName? name with
    | none => (.error (.unknown name), s)
    | some setting => (.ok (), s.resetOne setting)

/-- The value of a setting for display. -/
def textOf (s : Settings) : Setting → String
  | .prompt => Text.quoted s.prompt
  | .level => s.level.name
  | .process => s.process.name
  | .verbosity => toString s.verbosity.level
  | .displays => s.displays.text
  | .pfile => s.pfile
  | .efile => s.efile

/-- Every setting with its current value and its default. -/
def rows (s : Settings) : List Row :=
  Setting.all.map (fun setting => ⟨setting.name, s.textOf setting, default.textOf setting⟩)

end Settings

end TraceTree

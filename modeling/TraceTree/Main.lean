import TraceTree.CommandLine
import TraceTree.Session.Brackets

set_option autoImplicit false

/-! # The program

Reading lines and showing what a session makes of them. At a terminal the session prompts for each
line, and goes on reading while brackets are open. -/

namespace TraceTree.Terminal

/-- Show what a session wrote and put the files it wrote in their places. -/
def showOutput (s : Session) : IO Session := do
  let stdout ← IO.getStdout
  stdout.putStr s.output
  stdout.flush
  for (name, content) in s.disk.files do
    IO.FS.writeFile name content
  return { s with output := "" }

/-- Read a line without its end, unless the input has ended. -/
def readLine (stdin : IO.FS.Stream) : IO (Option String) := do
  let line ← stdin.getLine
  if line.isEmpty then return none
  return (CommandLine.linesOf line).head?

/-- Read lines until no bracket is open. -/
partial def readInput (stdin : IO.FS.Stream) (begun : String) : IO (Option String) := do
  match ← readLine stdin with
  | none => return none
  | some line =>
    let text := begun ++ line
    if Brackets.isComplete text then return some text
    readInput stdin (text ++ "\n")

/-- Handle lines from the standard input until the session quits or the input ends. -/
partial def handleAll (stdin : IO.FS.Stream) (atTerminal : Bool) (s : Session) : IO Unit := do
  if atTerminal then
    IO.print s.prompt
    (← IO.getStdout).flush
  match ← (if atTerminal then readInput stdin "" else readLine stdin) with
  | none => return
  | some line =>
    let (result, s) := s.handle line
    let s ← showOutput s
    match result with
    | .ok .quit => return
    | .ok .proceed => handleAll stdin atTerminal s
    | .error e => do
      IO.eprintln e.message
      handleAll stdin atTerminal s

/-- Run the program with given arguments. -/
def run (arguments : List String) : IO UInt32 := do
  match CommandLine.read arguments with
  | .error e => do
    IO.eprintln e.message
    return 2
  | .ok .help => do
    IO.print CommandLine.usage
    return 0
  | .ok (.run options) => do
    let stdin ← IO.getStdin
    let session := Session.new options.settings (← (← IO.getStdout).isTty)
    match options.expression with
    | some line => do
      let (result, s) := session.handle line
      let _ ← showOutput s
      match result with
      | .ok _ => return 0
      | .error e => do
        IO.eprintln ("Error: " ++ e.message)
        return 1
    | none => do
      let atTerminal ← stdin.isTty
      if atTerminal then
        IO.println "evaltree session - type :help for commands (Ctrl+D or Ctrl+C to exit)"
      handleAll stdin atTerminal session
      if atTerminal then
        IO.println "\nGoodbye!"
      return 0

end TraceTree.Terminal

/-- Run the program. -/
def main (arguments : List String) : IO UInt32 := TraceTree.Terminal.run arguments

import Mathlib
import TraceTree.Proofs.Text.Cutting
import TraceTree.Session.Basic

set_option autoImplicit false

/-! # How lines are handled

What a session does with a line depends on its mode and on how the line begins: a line is collected
while lines are being collected (`Session.handle_of_paste`), a command is looked up and carried out
(`Session.handle_of_command`), and any other line is run (`Session.handle_of_input`). A step of a
session that runs an input writes, and changes the workspace and the files; so it stays in every
relation that allows this (`AllowsOutput.stays_process`), and all else it keeps
(`Act.setup_process`). -/

namespace TraceTree

/-! ## Command lines -/

/-- The name and the text of a command line, which begins with a colon. -/
def commandParts? (line : String) : Option (String × String) :=
  match Text.trimBoth line.toList with
  | ':' :: cs =>
    some (String.ofList (cs.takeWhile (fun c => !Text.isBlank c)),
      Text.trim (String.ofList (cs.dropWhile (fun c => !Text.isBlank c))))
  | _ => none

/-- A line that gives a text, if there is one, to a command. -/
def commandLineOf (name rest : String) : String :=
  ":" ++ name ++ if rest = "" then "" else " " ++ rest

/-- **A command line is taken apart into what it was made of.** -/
theorem commandParts?_commandLineOf {name rest : String}
    (hname : ∀ c ∈ name.toList, Text.isBlank c = false) (hrest : Text.trim rest = rest) :
    commandParts? (commandLineOf name rest) = some (name, rest) := by
  have htrim : Text.trimBoth rest.toList = rest.toList := by
    simpa [Text.trim] using congrArg String.toList hrest
  have hcolon : ∀ c ∈ ':' :: name.toList, Text.isBlank c = false := by
    simpa [show Text.isBlank ':' = false by decide] using hname
  have htake : name.toList.takeWhile (fun c => !Text.isBlank c) = name.toList := by
    simpa using hname
  have hdrop : name.toList.dropWhile (fun c => !Text.isBlank c) = [] := by
    simpa using hname
  by_cases hempty : rest = ""
  · have hline : (commandLineOf name rest).toList = ':' :: name.toList := by
      simp [commandLineOf, hempty]
    rw [commandParts?, Text.trimBoth, hline, Text.trimLeft_cons (hcolon ':' List.mem_cons_self),
      Text.trimRight_eq_self hcolon]
    simp [htake, hdrop, hempty]
    decide
  · have hline : (commandLineOf name rest).toList = (':' :: name.toList ++ [' ']) ++ rest.toList := by
      simp [commandLineOf, hempty]
    have hne : rest.toList ≠ [] := by simpa using hempty
    rw [commandParts?, Text.trimBoth, hline, List.cons_append, List.cons_append,
      Text.trimLeft_cons (hcolon ':' List.mem_cons_self), ← List.cons_append, ← List.cons_append,
      Text.trimRight_append (Text.trimBoth_eq_self htrim).2 hne]
    have hspace : Text.isBlank ' ' = true := by decide
    have hrest' : Text.trim (" " ++ rest) = rest := by
      simpa [Text.trim, Text.trimBoth, Text.trimLeft_space] using hrest
    simp [List.takeWhile_append, List.dropWhile_append, htake, hdrop, hspace, hrest']

/-! ## Steps of a session -/

namespace Act

section Apply

variable {σ α β : Type}

@[simp] theorem bind_apply (act : ExceptT CommandError (StateM σ) α)
    (next : α → ExceptT CommandError (StateM σ) β) (s : σ) :
    (act >>= next) s =
      match act s with
      | (.ok a, s') => next a s'
      | (.error e, s') => (.error e, s') := by
  show ExceptT.bind act next s = _
  simp only [ExceptT.bind, ExceptT.mk, bind, StateT.bind, ExceptT.bindCont]
  cases act s with
  | mk result s' => cases result <;> rfl

@[simp] theorem pure_apply (a : α) (s : σ) :
    (pure a : ExceptT CommandError (StateM σ) α) s = (.ok a, s) := rfl

@[simp] theorem throw_apply (e : CommandError) (s : σ) :
    (throw e : ExceptT CommandError (StateM σ) α) s = (.error e, s) := rfl

@[simp] theorem get_apply (s : σ) : (get : ExceptT CommandError (StateM σ) σ) s = (.ok s, s) := rfl

@[simp] theorem set_apply (s s' : σ) :
    (set s' : ExceptT CommandError (StateM σ) PUnit) s = (.ok ⟨⟩, s') := rfl

@[simp] theorem modify_apply (f : σ → σ) (s : σ) :
    (modify f : ExceptT CommandError (StateM σ) PUnit) s = (.ok ⟨⟩, f s) := rfl

end Apply

variable {α β : Type} {R : Session → Session → Prop}

/-- A step after which the session goes on, unless the step fails. -/
theorem proceed_apply (act : Act Unit) (s : Session) :
    (act >>= fun _ => pure .proceed : Act Flow) s =
      ((act s).1.map fun _ => .proceed, (act s).2) := by
  rw [bind_apply]
  cases act s with
  | mk result s' => cases result <;> rfl

theorem withInput_of_ne {rest : String} (h : rest ≠ "") (command : Command)
    (use : String → Act Unit) : withInput command rest use = use rest := by
  simp [withInput, h]

/-- A step takes every session to one in a relation to it, whether it fails or not. -/
def Stays (R : Session → Session → Prop) (act : Act α) : Prop := ∀ s, R s (act s).2

theorem stays_modify {f : Session → Session} (h : ∀ s, R s (f s)) :
    (modify f : Act PUnit).Stays R := h

theorem stays_get {next : Session → Act α} (h : ∀ s, R s (next s s).2) :
    (get >>= next : Act α).Stays R := h

end Act

/-- What a run leaves alone: the settings, the commands, how reports are written and the lines being
collected. -/
def Session.setup (s : Session) : Settings × CommandSet × Bool × Option String :=
  (s.settings, s.commands, s.inColour, s.paste)

/-- The processes that evaluate their input. -/
def InputProcess.evaluates : InputProcess → Bool
  | parse | parseTree => false
  | eval | type | trace | evalTree => true

/-- A relation that sessions stay in while something is written to the output or to a file. -/
structure AllowsOutput (R : Session → Session → Prop) : Prop where
  refl : ∀ s, R s s
  trans : ∀ {s t u}, R s t → R t u → R s u
  output : ∀ s text, R s { s with output := s.output ++ text }
  disk : ∀ s disk, R s { s with disk := disk }

namespace AllowsOutput

open Act

variable {α β : Type} {R : Session → Session → Prop} (hR : AllowsOutput R)

include hR

theorem stays_pure (a : α) : (pure a : Act α).Stays R := hR.refl

theorem stays_throw (e : CommandError) : (throw e : Act α).Stays R := hR.refl

theorem stays_bind {act : Act α} {next : α → Act β} (h : act.Stays R)
    (hnext : ∀ a, (next a).Stays R) : (act >>= next).Stays R := by
  intro s
  have hfirst := h s
  rw [bind_apply]
  split
  · next a s' heq =>
    rw [heq] at hfirst
    exact hR.trans hfirst (hnext a s')
  · next e s' heq =>
    rw [heq] at hfirst
    exact hfirst

theorem stays_write (text : String) : (write text).Stays R := fun s => hR.output s text

theorem stays_report (failure : Failure) (source : String) :
    (report failure source).Stays R :=
  stays_get fun s => hR.stays_write _ s

theorem stays_if (on : Bool) {act : Act Unit} (h : act.Stays R) :
    (if on then act else pure () : Act Unit).Stays R := by
  split
  · exact h
  · exact hR.stays_pure ()

theorem stays_display (file : String) (render : Markup → String) :
    (display file render).Stays R := by
  refine stays_get fun s => ?_
  dsimp only
  -- what is sent to the file comes after what is sent to the console
  cases s.disk.write file (Markup.document (render .qtree)) with
  | ok disk =>
    have hwritten := hR.stays_if s.settings.displays.pdf
      (hR.stays_bind (stays_modify fun s => hR.disk s disk) fun _ =>
        hR.stays_write ("wrote " ++ file ++ "\n"))
    split
    · exact hR.stays_bind (hR.stays_write _) (fun _ => hwritten) s
    · exact hwritten s
  | error e =>
    have hfailed := hR.stays_if s.settings.displays.pdf (hR.stays_throw (.disk e))
    split
    · exact hR.stays_bind (hR.stays_write _) (fun _ => hfailed) s
    · exact hfailed s

theorem stays_processSyntax (level : Level) (input : String) {use : Parsed → Act Unit}
    (h : ∀ parsed, (use parsed).Stays R) : (processSyntax level input use).Stays R := by
  refine stays_get fun s => ?_
  cases s.workspace.parse input level with
  | error e => exact hR.stays_report _ _ s
  | ok parsed => exact h parsed s

/-- An input that cannot be read leaves the workspace alone. -/
theorem stays_processRun (level : Level) (input : String) {use : Option Value → Trace → Act Unit}
    (hrun : ∀ s parsed, s.workspace.parse input level = .ok parsed →
      R s { s with workspace := (s.workspace.run input level defaultLimit true).2 })
    (h : ∀ value trace, (use value trace).Stays R) : (processRun level input use).Stays R := by
  refine stays_get fun s => ?_
  have hset : R s { s with workspace := (s.workspace.run input level defaultLimit true).2 } := by
    cases hparse : s.workspace.parse input level with
    | error e =>
      rw [Workspace.run, hparse]
      exact hR.refl s
    | ok parsed => exact hrun s parsed hparse
  generalize s.workspace.run input level defaultLimit true = ran at hset ⊢
  obtain ⟨outcome, workspace⟩ := ran
  refine hR.trans hset ?_
  cases outcome with
  | error e => simpa using hR.stays_report (.parse e) input _
  | ok run =>
    cases hrun : run.outcome with
    | error o => simpa [hrun] using hR.stays_report (.overflow o) input _
    | ok value => simpa [hrun] using h value run.trace _

/-- **What a run does to a session:** it writes, and the workspace is that after the run if the
process evaluates an input that can be read. -/
theorem stays_process (process : InputProcess) (level : Level) (input : String)
    (hrun : process.evaluates = true → ∀ s parsed, s.workspace.parse input level = .ok parsed →
      R s { s with workspace := (s.workspace.run input level defaultLimit true).2 }) :
    (Act.process process level input).Stays R := by
  rw [Act.process.eq_def]
  cases process with
  | parse => exact hR.stays_processSyntax _ _ fun _ => hR.stays_write _
  | parseTree =>
    exact hR.stays_processSyntax _ _ fun _ => stays_get fun s => hR.stays_display _ _ s
  | eval =>
    refine hR.stays_processRun _ _ (hrun rfl) fun value _ => ?_
    cases value with
    | none => exact hR.stays_pure ()
    | some v => exact hR.stays_write _
  | type =>
    refine hR.stays_processRun _ _ (hrun rfl) fun value _ => ?_
    cases value <;> exact hR.stays_write _
  | trace => exact hR.stays_processRun _ _ (hrun rfl) fun _ _ => hR.stays_write _
  | evalTree =>
    exact hR.stays_processRun _ _ (hrun rfl) fun _ _ =>
      stays_get fun s => hR.stays_display _ _ s

end AllowsOutput

theorem allowsOutput_setup : AllowsOutput fun s t => t.setup = s.setup where
  refl := fun _ => rfl
  trans := fun h h' => h'.trans h
  output := fun _ _ => rfl
  disk := fun _ _ => rfl

/-- **A run leaves alone** how the session is set up, whatever comes of it. -/
theorem Act.setup_process (process : InputProcess) (level : Level) (input : String) (s : Session) :
    (Act.process process level input s).2.setup = s.setup :=
  allowsOutput_setup.stays_process process level input (fun _ _ _ _ => rfl) s

/-- A run writes behind what was written before. -/
theorem allowsOutput_output : AllowsOutput fun s t => ∃ text, t.output = s.output ++ text where
  refl := fun s => ⟨"", s.output.append_empty.symm⟩
  trans := by
    rintro s t u ⟨text, ht⟩ ⟨more, hu⟩
    exact ⟨text ++ more, by rw [hu, ht, String.append_assoc]⟩
  output := fun _ text => ⟨text, rfl⟩
  disk := fun s _ => ⟨"", s.output.append_empty.symm⟩

/-- Running an input does not replace the global scope. -/
theorem Workspace.globals_run (w : Workspace) (source : String) (level : Level) (limit : Nat)
    (tracing : Bool) : (w.run source level limit tracing).2.globals = w.globals := by
  unfold run
  split <;> rfl

theorem allowsOutput_globals :
    AllowsOutput fun s t => t.workspace.globals = s.workspace.globals where
  refl := fun _ => rfl
  trans := fun h h' => h'.trans h
  output := fun _ _ => rfl
  disk := fun _ _ => rfl

/-- A process that only reads its input leaves the workspace alone, and so does one whose input cannot
be read. -/
theorem Act.workspace_process {process : InputProcess} {level : Level} {input : String}
    {s : Session} (h : ¬ (process.evaluates = true ∧
      ∃ parsed, s.workspace.parse input level = .ok parsed)) :
    (Act.process process level input s).2.workspace = s.workspace := by
  have hallows : AllowsOutput fun s t => (process.evaluates = true ∧
      ∃ parsed, s.workspace.parse input level = .ok parsed) ∨ t.workspace = s.workspace := {
    refl := fun _ => .inr rfl
    trans := by
      rintro s t u (hs | ht) hu
      · exact .inl hs
      · rwa [ht] at hu
    output := fun _ _ => .inr rfl
    disk := fun _ _ => .inr rfl }
  have hstays := hallows.stays_process process level input fun heval s parsed hparse =>
    .inl ⟨heval, parsed, hparse⟩
  exact (hstays s).resolve_left h

/-! ## Lines -/

namespace Session

variable {s : Session}

/-- While lines are being collected, so is the next one. -/
theorem handle_of_paste {buffer : String} (h : s.paste = some buffer) (line : String) :
    s.handle line = Act.collect buffer line s := by
  simp [handle, Act.handle, h]

/-- A command is looked up and carried out. -/
theorem handle_of_command (h : s.paste = none) {line name rest : String}
    (hline : commandParts? line = some (name, rest)) :
    s.handle line =
      match s.commands.get? name with
      | none => (.error (.unknown name), s)
      | some command => Act.command command rest s := by
  rw [commandParts?] at hline
  split at hline
  · next cs htrim =>
    obtain ⟨rfl, rfl⟩ := Prod.mk.inj (Option.some.inj hline)
    simp only [handle, Act.handle, Act.commandLine, Act.bind_apply, Act.get_apply, h, htrim]
    cases s.commands.get? (String.ofList (cs.takeWhile fun c => !Text.isBlank c)) <;> rfl
  · cases hline

/-- Run an input as the session is configured to. -/
def submit (s : Session) (input : String) : Except CommandError Flow × Session :=
  let run := Act.process s.settings.process s.settings.level input s
  (run.1.map fun _ => .proceed, run.2)

/-- A run does not begin to collect lines, nor does it end that. -/
theorem paste_submit (s : Session) (input : String) : (s.submit input).2.paste = s.paste :=
  congrArg (·.2.2.2) (Act.setup_process s.settings.process s.settings.level input s)

/-- A line that is no command is run without the blanks around it. -/
theorem handle_of_plain (h : s.paste = none) {line : String} (hplain : commandParts? line = none)
    (hne : Text.trim line ≠ "") : s.handle line = s.submit (Text.trim line) := by
  have hrun : s.handle line = (do Act.runInput (Text.trim line); pure .proceed : Act Flow) s := by
    simp only [handle, Act.handle, Act.bind_apply get, Act.get_apply, h]
    refine congrFun ?_ s
    split
    · next hnil => simp [Text.trim, hnil] at hne
    · next cs htrim => simp [commandParts?, htrim] at hplain
    · rfl
  rw [hrun, Act.proceed_apply]
  rfl

/-- A line that has no outer blanks and does not begin with a colon is run as it is. -/
theorem handle_of_input (h : s.paste = none) {line : String} (hne : line ≠ "")
    (htrim : Text.trim line = line) (hcolon : line.toList.head? ≠ some ':') :
    s.handle line = s.submit line := by
  have hchars : Text.trimBoth line.toList = line.toList := by
    simpa [Text.trim] using congrArg String.toList htrim
  have hplain : commandParts? line = none := by
    rw [commandParts?, hchars]
    split
    · next rest hcons => simp [hcons] at hcolon
    · rfl
  have hrun := handle_of_plain h hplain (by rwa [htrim])
  rwa [htrim] at hrun

/-- A blank line does nothing, unless it ends a collection of lines. -/
theorem handle_of_blank (h : s.paste = none) {line : String} (hblank : Text.trim line = "") :
    s.handle line = (.ok .proceed, s) := by
  have hchars : Text.trimBoth line.toList = [] := by
    simpa [Text.trim] using hblank
  simp [handle, Act.handle, h, hchars]

end Session

end TraceTree

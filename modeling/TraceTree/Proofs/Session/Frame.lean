import Mathlib
import TraceTree.Proofs.Session.Submission
import TraceTree.Proofs.Session.Switching
import TraceTree.Proofs.Value.Binding

set_option autoImplicit false

/-! # What a line can change

A line can be collected, ask for the action of a command, or be run as it is. `Session.After` says
once what a session can be after it: each constructor is one way of handling a line, with what it
takes for it and all that it changes. Which lines can change a part of the session is read off it
(`Session.handle_changes`), and what no line changes stays the same over any number of lines
(`Session.handleAll_keeps`). -/

namespace TraceTree

/-! ## What a line asks for -/

namespace Session

/-- A line asks for the action of a command; `rest` is the text behind the name. -/
def Asks (s : Session) (line : String) (action : Action) (rest : String) : Prop :=
  s.paste = none ∧ ∃ name command, commandParts? line = some (name, rest) ∧
    s.commands.get? name = some command ∧ command.action = action

/-- A line makes a session run an input through a process at a level: the lines collected before it,
the line itself, or the text that it gives to a command. -/
inductive Runs (s : Session) (line : String) : InputProcess → Level → String → Prop where
  | collected {buffer : String} (pasting : s.paste = some buffer)
      (blank : Text.isBlankText line = true) (text : Text.isBlankText buffer = false) :
      Runs s line s.settings.process s.settings.level buffer
  | input (idle : s.paste = none) (plain : commandParts? line = none)
      (text : Text.trim line ≠ "") :
      Runs s line s.settings.process s.settings.level (Text.trim line)
  | atLevel {level : Level} {rest : String} (asks : s.Asks line level.action rest)
      (text : rest ≠ "") : Runs s line s.settings.process level rest
  | through {process : InputProcess} {rest : String} (asks : s.Asks line process.action rest)
      (text : rest ≠ "") : Runs s line process s.settings.level rest

/-- A line makes a session evaluate an input that can be read. -/
def Evaluates (s : Session) (line : String) : Prop :=
  ∃ process level input, s.Runs line process level input ∧ process.evaluates = true ∧
    ∃ parsed, s.workspace.parse input level = .ok parsed

/-- The actions that change the settings. -/
def settingActions : List Action := [.set, .unset, .reset]

/-- What a session can be after a line. -/
inductive After (s : Session) (line : String) : Session → Prop where
  | collects {buffer : String} (pasting : s.paste = some buffer)
      (text : Text.isBlankText line = false) :
      After s line { s with paste := some (buffer ++ line ++ "\n") }
  | drops {buffer : String} (pasting : s.paste = some buffer)
      (blank : Text.isBlankText line = true) : After s line { s with paste := none }
  | runs {process : InputProcess} {level : Level} {input : String}
      (runs : s.Runs line process level input) :
      After s line (Act.process process level input { s with paste := none }).2
  | clears {rest : String} (asks : s.Asks line .clear rest) :
      After s line { s with workspace := s.workspace.cleared }
  | pastes {rest : String} (asks : s.Asks line .paste rest) :
      After s line { s with paste := some (collected rest []) }
  | sets {action : Action} {rest : String} (mem : action ∈ settingActions)
      (asks : s.Asks line action rest) (settings : Settings) :
      After s line { s with settings := settings }
  | writes (idle : s.paste = none) (text : String) :
      After s line { s with output := s.output ++ text }

variable {s s' : Session} {line rest : String} {action : Action}

theorem After.same (h : s.paste = none) : s.After line s := by
  have hwrites : s.After line { s with output := s.output ++ "" } := .writes h ""
  rwa [String.append_empty] at hwrites

theorem After.runs_of_paste {process : InputProcess} {level : Level} {input : String}
    (hpaste : s.paste = none) (h : s.Runs line process level input) :
    s.After line (Act.process process level input s).2 := by
  have hself : { s with paste := none } = s := by rw [← hpaste]
  have hruns := After.runs h
  rwa [hself] at hruns

/-- A command that takes an input does nothing without one. -/
theorem After.withInput (hpaste : s.paste = none) (command : Command) {use : String → Act Unit}
    (h : rest ≠ "" → s.After line (use rest s).2) :
    s.After line (Act.withInput command rest use s).2 := by
  by_cases hempty : rest = ""
  · simp only [Act.withInput, hempty]
    exact .same hpaste
  · rw [Act.withInput_of_ne hempty]
    exact h hempty

theorem After.help (hpaste : s.paste = none) (rest : String) :
    s.After line (Act.help rest s).2 := by
  by_cases hrest : rest = ""
  · simp only [hrest]
    exact .writes hpaste _
  · simp only [Act.help, Act.bind_apply, Act.get_apply, beq_iff_eq, hrest, if_false]
    cases s.commands.usage? (String.ofList (rest.toList.dropWhile (· == ':'))) with
    | some usage => exact .writes hpaste usage
    | none => exact .same hpaste

/-- **What commands do.** -/
theorem after_command {command : Command} (h : s.Asks line command.action rest) :
    s.After line (Act.command command rest s).2 := by
  have hpaste := h.1
  -- all commands but `quit` are a step after which the session goes on
  have hproceed : ∀ act : Act Unit, s.After line (act s).2 →
      s.After line ((act >>= fun _ => pure .proceed : Act Flow) s).2 := by
    intro act hact
    rwa [Act.proceed_apply]
  have hlevel : ∀ level : Level, command.action = level.action →
      s.After line (Act.withInput command rest (fun input => do
        let s ← get
        Act.process s.settings.process level input) s).2 :=
    fun level haction => .withInput hpaste command fun hne =>
      .runs_of_paste hpaste (.atLevel (haction ▸ h) hne)
  have hthrough : ∀ process : InputProcess, command.action = process.action →
      s.After line (Act.withInput command rest (fun input => do
        let s ← get
        Act.process process s.settings.level input) s).2 :=
    fun process haction => .withInput hpaste command fun hne =>
      .runs_of_paste hpaste (.through (haction ▸ h) hne)
  rw [Act.command]
  cases haction : command.action with
  | quit => exact .same hpaste
  | help => exact hproceed (Act.help rest) (.help hpaste rest)
  | list => exact hproceed Act.list (.writes hpaste _)
  | clear =>
    exact hproceed (modify fun s => { s with workspace := s.workspace.cleared })
      (.clears (haction ▸ h))
  | clearScreen => exact hproceed (Act.write _) (.writes hpaste _)
  | paste =>
    have hcollected : (if rest == "" then "" else rest ++ "\n") = collected rest [] := by
      simp [collected]
    dsimp only
    rw [hcollected]
    exact hproceed (modify fun s => { s with paste := some (collected rest []) })
      (.pastes (haction ▸ h))
  | expression => exact hproceed _ (hlevel .expression haction)
  | statement => exact hproceed _ (hlevel .statement haction)
  | program => exact hproceed _ (hlevel .program haction)
  | parse => exact hproceed _ (hthrough .parse haction)
  | parseTree => exact hproceed _ (hthrough .parseTree haction)
  | eval => exact hproceed _ (hthrough .eval haction)
  | type => exact hproceed _ (hthrough .type haction)
  | trace => exact hproceed _ (hthrough .trace haction)
  | evalTree => exact hproceed _ (hthrough .evalTree haction)
  | settings => exact hproceed (do let s ← get; Act.write _) (.writes hpaste _)
  | set | unset =>
    refine hproceed (Act.withInput command rest _) (.withInput hpaste command fun _ => ?_)
    rw [Act.changeSettings_apply]
    exact .sets (by decide) (haction ▸ h) _
  | reset =>
    refine hproceed (Act.changeSettings _) ?_
    rw [Act.changeSettings_apply]
    exact .sets (by decide) (haction ▸ h) _

/-- **What a line does,** in whatever state the session is and whether the line fails or not. -/
theorem after_handle (s : Session) (line : String) : s.After line (s.handle line).2 := by
  cases hpaste : s.paste with
  | some buffer =>
    by_cases hblank : Text.isBlankText line = true
    · rw [handle_blank hpaste hblank]
      split
      · exact .drops hpaste hblank
      · next htext => exact .runs (.collected hpaste hblank (Bool.eq_false_iff.mpr htext))
    · rw [handle_collect hpaste (Bool.eq_false_iff.mpr hblank)]
      exact .collects hpaste (Bool.eq_false_iff.mpr hblank)
  | none =>
    cases hparts : commandParts? line with
    | none =>
      by_cases htext : Text.trim line = ""
      · rw [handle_of_blank hpaste htext]
        exact .same hpaste
      · rw [handle_of_plain hpaste hparts htext]
        exact .runs_of_paste hpaste (.input hpaste hparts htext)
    | some parts =>
      obtain ⟨name, rest⟩ := parts
      rw [handle_of_command hpaste hparts]
      cases hget : s.commands.get? name with
      | none => exact .same hpaste
      | some command => exact after_command ⟨hpaste, name, command, hparts, hget, rfl⟩

/-! ## What changes each part -/

/-- Only `clear` replaces the global scope. -/
theorem After.globals (h : s.After line s')
    (hne : s'.workspace.globals ≠ s.workspace.globals) : ∃ rest, s.Asks line .clear rest := by
  cases h with
  | @clears rest asks => exact ⟨rest, asks⟩
  | @runs process level input runs =>
    exact absurd (allowsOutput_globals.stays_process process level input
      (fun _ s _ _ => s.workspace.globals_run input level defaultLimit true) _) hne
  | _ => exact absurd rfl hne

/-- Only `clear` and the evaluation of an input change the workspace. -/
theorem After.workspace (h : s.After line s') (heval : ¬ s.Evaluates line) :
    s'.workspace = s.workspace ∨
      (∃ rest, s.Asks line .clear rest) ∧ s'.workspace = s.workspace.cleared := by
  cases h with
  | @clears rest asks => exact .inr ⟨⟨rest, asks⟩, rfl⟩
  | @runs process level input runs =>
    refine .inl ?_
    have hsame : ¬ (process.evaluates = true ∧
        ∃ parsed, s.workspace.parse input level = .ok parsed) :=
      fun h => heval ⟨process, level, input, runs, h⟩
    exact Act.workspace_process (s := { s with paste := none }) hsame
  | _ => exact .inl rfl

/-- Only the evaluation of an input changes what the scopes bind. -/
theorem After.bindings (h : s.After line s') {t : ScopeId}
    (hne : s'.workspace.heap.bindings t ≠ s.workspace.heap.bindings t) : s.Evaluates line := by
  by_contra heval
  rcases h.workspace heval with hsame | ⟨-, hcleared⟩
  · exact hne (by rw [hsame])
  · rw [hcleared] at hne
    exact hne (Heap.bindings_newScope ..)

/-- Only the commands for settings change the settings. -/
theorem After.settings (h : s.After line s') (hne : s'.settings ≠ s.settings) :
    ∃ action ∈ settingActions, ∃ rest, s.Asks line action rest := by
  cases h with
  | @sets action rest mem asks _ => exact ⟨action, mem, rest, asks⟩
  | @runs process level input runs =>
    exact absurd (congrArg (·.1) (Act.setup_process process level input { s with paste := none }))
      hne
  | _ => exact absurd rfl hne

/-- Only `paste` makes a session collect lines. -/
theorem After.asks_paste (h : s.After line s') (hpaste : s.paste = none) (hne : s'.paste ≠ none) :
    ∃ rest, s.Asks line .paste rest := by
  cases h with
  | @pastes rest asks => exact ⟨rest, asks⟩
  | collects pasting _ | drops pasting _ => exact absurd (hpaste.symm.trans pasting) nofun
  | @runs process level input runs =>
    exact absurd (congrArg (·.2.2.2)
      (Act.setup_process process level input { s with paste := none })) hne
  | _ => exact absurd hpaste hne

theorem paste_handle_of_asks (h : s.Asks line .paste rest) :
    (s.handle line).2.paste = some (collected rest []) := by
  obtain ⟨hpaste, name, command, hparts, hget, haction⟩ := h
  rw [handle_of_command hpaste hparts, hget]
  simp only [Act.command, haction, collected]
  by_cases hrest : rest = ""
  · simp [hrest]
  · simp [hrest]

/-- Only a blank line makes it stop. -/
theorem After.paste_of_some (h : s.After line s') (hpaste : s.paste ≠ none) :
    s'.paste = none ↔ Text.isBlankText line = true := by
  have hbusy : ∀ {action rest}, ¬ s.Asks line action rest := fun asks => hpaste asks.1
  cases h with
  | collects _ text => simp [text]
  | drops _ blank => simp [blank]
  | @runs process level input runs =>
    have hnone := congrArg (·.2.2.2)
      (Act.setup_process process level input { s with paste := none })
    cases runs with
    | collected _ blank _ => exact iff_of_true hnone blank
    | input idle _ _ => exact absurd idle hpaste
    | atLevel asks _ | through asks _ => exact absurd asks hbusy
  | clears asks | pastes asks | sets _ asks => exact absurd asks hbusy
  | writes idle _ => exact absurd idle hpaste

/-- No line changes the commands or how reports are written. -/
theorem After.commands (h : s.After line s') :
    s'.commands = s.commands ∧ s'.inColour = s.inColour := by
  cases h with
  | @runs process level input runs =>
    have hsetup := Act.setup_process process level input { s with paste := none }
    exact ⟨congrArg (·.2.1) hsetup, congrArg (·.2.2.1) hsetup⟩
  | _ => exact ⟨rfl, rfl⟩

/-- What a line writes stands behind what was written before. -/
theorem After.output (h : s.After line s') : ∃ text, s'.output = s.output ++ text := by
  cases h with
  | @runs process level input runs =>
    exact allowsOutput_output.stays_process process level input
      (fun _ s _ _ => ⟨"", s.output.append_empty.symm⟩) { s with paste := none }
  | writes _ text => exact ⟨text, rfl⟩
  | _ => exact ⟨"", s.output.append_empty.symm⟩

/-- **Each part of a session changes only through its own commands.** Whatever the state of the
session, and whether the line fails or not: only `clear` replaces the global scope; what a scope binds
changes only if an input that can be read is evaluated, and the workspace as a whole only by that or by
`clear`; the settings change only by the commands for them; `paste` and nothing else makes the session
collect lines, and a blank line and nothing else makes it stop; the commands stay what they are; and
what is written stands behind what was written before. -/
theorem handle_changes (s : Session) (line : String) :
    let s' := (s.handle line).2
    (s'.workspace.globals ≠ s.workspace.globals → ∃ rest, s.Asks line .clear rest) ∧
      (∀ t, s'.workspace.heap.bindings t ≠ s.workspace.heap.bindings t → s.Evaluates line) ∧
      (s'.workspace ≠ s.workspace →
        s.Evaluates line ∨
          (∃ rest, s.Asks line .clear rest) ∧ s'.workspace = s.workspace.cleared) ∧
      (s'.settings ≠ s.settings → ∃ action ∈ settingActions, ∃ rest, s.Asks line action rest) ∧
      (s.paste = none → (s'.paste ≠ none ↔ ∃ rest, s.Asks line .paste rest)) ∧
      (s.paste ≠ none → (s'.paste = none ↔ Text.isBlankText line = true)) ∧
      s'.commands = s.commands ∧ s'.inColour = s.inColour ∧
      ∃ text, s'.output = s.output ++ text := by
  intro s'
  have h : s.After line s' := after_handle s line
  refine ⟨h.globals, fun t => h.bindings, fun hne => ?_, h.settings, fun hpaste => ?_,
    h.paste_of_some, h.commands.1, h.commands.2, h.output⟩
  · by_cases heval : s.Evaluates line
    · exact .inl heval
    · exact .inr ((h.workspace heval).resolve_left hne)
  · refine ⟨h.asks_paste hpaste, ?_⟩
    rintro ⟨rest, hasks⟩
    rw [paste_handle_of_asks hasks]
    nofun

/-- **What no line changes,** over any number of lines. -/
theorem handleAll_keeps (s : Session) (lines : List String) :
    let s' := (s.handleAll lines).2
    s'.commands = s.commands ∧ s'.inColour = s.inColour ∧
      ∃ text, s'.output = s.output ++ text := by
  induction lines generalizing s with
  | nil => exact ⟨rfl, rfl, "", s.output.append_empty.symm⟩
  | cons line lines ih =>
    obtain ⟨hcommands, hcolour⟩ := (after_handle s line).commands
    obtain ⟨text, htext⟩ := (after_handle s line).output
    obtain ⟨hcommands', hcolour', more, hmore⟩ := ih (s.handle line).2
    refine ⟨hcommands'.trans hcommands, hcolour'.trans hcolour, text ++ more, ?_⟩
    rw [← String.append_assoc, ← htext]
    exact hmore

end Session

end TraceTree

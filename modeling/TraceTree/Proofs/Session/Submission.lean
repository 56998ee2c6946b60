import Mathlib
import TraceTree.Proofs.Session.Handling

set_option autoImplicit false

/-! # Ways of submitting an input

An input can be typed as a line, given to the command of a level or of a process, or collected line
by line after `paste`. All of these run it through the configured process at the configured level,
and nothing else happens (`Session.submissions_agree`).

While lines are collected a line is no more than text, whatever it looks like: each one is put behind
what has been collected (`Session.handleAll_collect`). The blank line that ends this takes the text
before it runs it, so the session no longer collects even if the run fails. -/

namespace TraceTree

/-- The action of the commands that run their text at a level. -/
def Level.action : Level → Action
  | program => .program
  | statement => .statement
  | expression => .expression

/-- The action of the commands that run their text through a process. -/
def InputProcess.action : InputProcess → Action
  | parse => .parse
  | parseTree => .parseTree
  | eval => .eval
  | type => .type
  | trace => .trace
  | evalTree => .evalTree

namespace Session

variable {s : Session} {buffer line name x : String}

/-- Handle lines one after the other: what comes of each, and the session afterwards. -/
def handleAll (s : Session) : List String → List (Except CommandError Flow) × Session
  | [] => ([], s)
  | line :: more =>
    ((s.handle line).1 :: ((s.handle line).2.handleAll more).1,
      ((s.handle line).2.handleAll more).2)

theorem handleAll_append (s : Session) (lines more : List String) :
    s.handleAll (lines ++ more) =
      ((s.handleAll lines).1 ++ ((s.handleAll lines).2.handleAll more).1,
        ((s.handleAll lines).2.handleAll more).2) := by
  induction lines generalizing s with
  | nil => rfl
  | cons line lines ih => simp [handleAll, ih]

/-! ## Collecting lines -/

/-- What is collected: the text behind `paste`, and the lines after it. -/
def collected (start : String) (lines : List String) : String :=
  lines.foldl (fun text line => text ++ line ++ "\n") (if start = "" then "" else start ++ "\n")

/-- A line that is not blank is put behind what has been collected. -/
theorem handle_collect (h : s.paste = some buffer) (hline : Text.isBlankText line = false) :
    s.handle line = (.ok .proceed, { s with paste := some (buffer ++ line ++ "\n") }) := by
  simp only [handle_of_paste h, Act.collect, hline, Bool.false_eq_true, if_false]
  rfl

/-- **Lines are text while they are collected**, whatever they look like. -/
theorem handleAll_collect (h : s.paste = some buffer) {lines : List String}
    (hlines : ∀ line ∈ lines, Text.isBlankText line = false) :
    s.handleAll lines =
      (List.replicate lines.length (.ok .proceed),
        { s with
          paste := some (lines.foldl (fun text line => text ++ line ++ "\n") buffer) }) := by
  induction lines generalizing s buffer with
  | nil => simp [handleAll, ← h]
  | cons line lines ih =>
    rw [List.forall_mem_cons] at hlines
    rw [handleAll, handle_collect h hlines.1, ih rfl hlines.2]
    rfl

/-- **A blank line ends the collecting** and runs what was collected, if it is not blank. -/
theorem handle_blank (h : s.paste = some buffer) (hline : Text.isBlankText line = true) :
    s.handle line =
      if Text.isBlankText buffer then (.ok .proceed, { s with paste := none })
      else { s with paste := none }.submit buffer := by
  rw [handle_of_paste h]
  by_cases hblank : Text.isBlankText buffer = true
  · simp only [Act.collect, hline, hblank]
    rfl
  · simp only [Act.collect, hline, hblank, if_true, Bool.not_false, Bool.false_eq_true, if_false,
      Act.bind_apply (modify _), Act.modify_apply]
    exact Act.proceed_apply (Act.runInput buffer) _

/-! ## Commands -/

/-- A name, without blanks, of a command of the session with a given action. -/
def Names (s : Session) (action : Action) (name : String) : Prop :=
  (∀ c ∈ name.toList, Text.isBlank c = false) ∧
    ∃ command, s.commands.get? name = some command ∧ command.action = action

theorem handle_commandLineOf {action : Action} {rest : String} (hpaste : s.paste = none)
    (hname : s.Names action name) (hrest : Text.trim rest = rest) :
    ∃ command : Command, command.action = action ∧
      s.handle (commandLineOf name rest) = Act.command command rest s := by
  obtain ⟨hblank, command, hget, haction⟩ := hname
  refine ⟨command, haction, ?_⟩
  rw [handle_of_command hpaste (commandParts?_commandLineOf hblank hrest), hget]

/-- `paste` begins to collect lines. -/
theorem handle_paste {start : String} (hpaste : s.paste = none) (hname : s.Names .paste name)
    (hstart : Text.trim start = start) :
    s.handle (commandLineOf name start) =
      (.ok .proceed, { s with paste := some (collected start []) }) := by
  obtain ⟨command, haction, hhandle⟩ := handle_commandLineOf hpaste hname hstart
  rw [hhandle, Act.command, haction]
  by_cases hempty : start = ""
  · simp only [hempty, collected]
    rfl
  · simp only [hempty, collected, beq_iff_eq, if_false]
    rfl

/-- **Lines after `paste` are collected,** and nothing else happens. -/
theorem handleAll_paste {start : String} {lines : List String} (hpaste : s.paste = none)
    (hname : s.Names .paste name) (hstart : Text.trim start = start)
    (hlines : ∀ line ∈ lines, Text.isBlankText line = false) :
    s.handleAll (commandLineOf name start :: lines) =
      (List.replicate (lines.length + 1) (.ok .proceed),
        { s with paste := some (collected start lines) }) := by
  rw [handleAll, handle_paste hpaste hname hstart, handleAll_collect rfl hlines]
  rfl

/-- The commands of the configured level and of the configured process run their text as the session
is configured to. -/
theorem handle_configured (hpaste : s.paste = none)
    (hname : s.Names s.settings.level.action name ∨ s.Names s.settings.process.action name)
    (hne : x ≠ "") (htrim : Text.trim x = x) :
    s.handle (commandLineOf name x) = s.submit x := by
  rcases hname with hname | hname
  · obtain ⟨command, haction, hhandle⟩ := handle_commandLineOf hpaste hname htrim
    rw [hhandle, Act.command, haction]
    cases hlevel : s.settings.level <;>
      simp only [Level.action, Act.withInput_of_ne hne, submit, hlevel] <;>
      exact Act.proceed_apply _ s
  · obtain ⟨command, haction, hhandle⟩ := handle_commandLineOf hpaste hname htrim
    rw [hhandle, Act.command, haction]
    cases hprocess : s.settings.process <;>
      simp only [InputProcess.action, Act.withInput_of_ne hne, submit, hprocess] <;>
      exact Act.proceed_apply _ s

theorem names_standard (h : s.commands = .standard) {action : Action}
    (hname : name.toList.all (fun c => !Text.isBlank c) = true)
    (hget : (CommandSet.standard.get? name).map (·.action) = some action) :
    s.Names action name := by
  refine ⟨by simpa using hname, ?_⟩
  rw [h]
  simpa using hget

/-- **All ways of submitting an input are the same run.** While a session collects what follows
`paste`, it keeps each line as text and does nothing else; at the blank line it runs the text unless
the text is blank, and it no longer collects, whatever comes of the run. An input that looks like no
command is run in the same way, be it a line of its own or the text of the command of the configured
level or process. -/
theorem submissions_agree (hpaste : s.paste = none) :
    (∀ name start, s.Names .paste name → Text.trim start = start →
      ∀ lines : List String, (∀ line ∈ lines, Text.isBlankText line = false) →
        s.handleAll (commandLineOf name start :: lines) =
          (List.replicate (lines.length + 1) (.ok .proceed),
            { s with paste := some (collected start lines) }) ∧
        ∀ blank, Text.isBlankText blank = true →
          let run :=
            if Text.isBlankText (collected start lines) then (.ok .proceed, s)
            else s.submit (collected start lines)
          s.handleAll (commandLineOf name start :: lines ++ [blank]) =
              (List.replicate (lines.length + 1) (.ok .proceed) ++ [run.1], run.2) ∧
            run.2.paste = none) ∧
    (∀ x, x ≠ "" → Text.trim x = x → x.toList.head? ≠ some ':' →
      s.handle x = s.submit x ∧
        ∀ name, s.Names s.settings.level.action name ∨ s.Names s.settings.process.action name →
          s.handle (commandLineOf name x) = s.handle x) ∧
    (s.commands = .standard →
      s.Names .paste "paste" ∧ s.Names s.settings.level.action s.settings.level.name ∧
        s.Names s.settings.process.action s.settings.process.name) := by
  have hself : { s with paste := none } = s := by rw [← hpaste]
  refine ⟨fun name start hname hstart lines hlines => ?_, fun x hne htrim hcolon => ?_,
    fun hcommands => ⟨?_, ?_, ?_⟩⟩
  · have hcollect := handleAll_paste hpaste hname hstart hlines
    refine ⟨hcollect, fun blank hblank => ?_⟩
    -- the text is taken before it is run, so the run starts from the session as it was
    rw [handleAll_append, hcollect, handleAll, handle_blank rfl hblank]
    by_cases hempty : Text.isBlankText (collected start lines) = true
    · simp [hempty, hself, hpaste, handleAll]
    · simp [hempty, hself, paste_submit, hpaste, handleAll]
  · have hinput := handle_of_input hpaste hne htrim hcolon
    refine ⟨hinput, fun name hname => ?_⟩
    rw [hinput, handle_configured hpaste hname hne htrim]
  · exact names_standard hcommands (by decide) (by decide +kernel)
  · cases s.settings.level <;> exact names_standard hcommands (by decide) (by decide +kernel)
  · cases s.settings.process <;> exact names_standard hcommands (by decide) (by decide +kernel)

/-- A line that would quit a new session is part of the text that is collected. -/
theorem submissions_agree_new :
    let s := Session.new .default false
    s.paste = none ∧
      s.handleAll [":paste let a = 1;", ":quit", " "] =
        ([.ok .proceed, .ok .proceed, (s.submit "let a = 1;\n:quit\n").1],
          (s.submit "let a = 1;\n:quit\n").2) ∧
      s.handle ":program 1 + 2" = s.handle "1 + 2" ∧ s.handle ":eval 1 + 2" = s.handle "1 + 2" := by
  intro s
  have hnone : s.paste = none := rfl
  obtain ⟨hpaste, hinput, hnames⟩ := submissions_agree hnone
  obtain ⟨hpasteName, hlevel, hprocess⟩ := hnames (by simp only [s, new])
  have hsubmit := (hinput "1 + 2" (by decide) (by decide) (by decide)).2
  have hrun := ((hpaste "paste" "let a = 1;" hpasteName (by decide) [":quit"] (by decide)).2 " "
    (by decide)).1
  have htext : collected "let a = 1;" [":quit"] = "let a = 1;\n:quit\n" := by decide
  have hblank : Text.isBlankText "let a = 1;\n:quit\n" = false := by decide
  have hpasteLine : commandLineOf "paste" "let a = 1;" = ":paste let a = 1;" := by decide
  have hlevelLine : commandLineOf s.settings.level.name "1 + 2" = ":program 1 + 2" := by decide
  have hprocessLine : commandLineOf s.settings.process.name "1 + 2" = ":eval 1 + 2" := by decide
  rw [htext, hblank, hpasteLine] at hrun
  refine ⟨hnone, hrun, ?_, ?_⟩
  · rw [← hlevelLine]
    exact hsubmit _ (.inl hlevel)
  · rw [← hprocessLine]
    exact hsubmit _ (.inr hprocess)

end Session

end TraceTree

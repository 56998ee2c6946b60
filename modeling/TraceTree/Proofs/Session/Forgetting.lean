import TraceTree.Proofs.Diagram.Later
import TraceTree.Proofs.Session.Frame
import TraceTree.Proofs.Workspace.Later

set_option autoImplicit false

/-! # Forgetting by `clear`

`clear` makes a new global scope and leaves everything else in the heap: old scopes, functions and
values, and the numbers of all nodes read so far. None of it can be seen any more. A session on a
workspace that begins later does with each line what one on an empty workspace does, later
(`Act.steady_handle`), and nothing that a session answers shows how much later. So after `clear` a
session answers like a new one with the same settings (`Session.clear_forgets`). -/

namespace TraceTree

/-- A session whose workspace begins later. -/
def Session.later (p : Past) (s : Session) : Session := { s with workspace := s.workspace.later p }

/-! ## Steps of a session -/

namespace Act

variable {α β : Type} {p : Past}

/-- A step does on a workspace that begins later what another one does, later; and the workspace stays
sound. -/
def Shifts (p : Past) (act act' : Act α) : Prop :=
  ∀ s, s.workspace.Sound →
    act' (s.later p) = ((act s).1, (act s).2.later p) ∧ (act s).2.workspace.Sound

/-- A step does on a workspace that begins later what it does, later. -/
abbrev Steady (p : Past) (act : Act α) : Prop := act.Shifts p act

theorem steady_pure (a : α) : (pure a : Act α).Steady p := fun _ hs => ⟨rfl, hs⟩

theorem steady_throw (e : CommandError) : (throw e : Act α).Steady p := fun _ hs => ⟨rfl, hs⟩

theorem Shifts.bind {act act' : Act α} {next next' : α → Act β} (h : act.Shifts p act')
    (hnext : ∀ a, (next a).Shifts p (next' a)) : (act >>= next).Shifts p (act' >>= next') := by
  intro s hs
  obtain ⟨hfirst, hsound⟩ := h s hs
  rw [bind_apply, bind_apply, hfirst]
  revert hsound
  rcases act s with ⟨_ | a, s'⟩
  · exact fun hsound => ⟨rfl, hsound⟩
  · exact fun hsound => hnext a s' hsound

/-- What a step does depends on the session. -/
theorem shifts_get {next next' : Session → Act α}
    (h : ∀ s, s.workspace.Sound → (next s).Shifts p (next' (s.later p))) :
    (get >>= next : Act α).Shifts p (get >>= next') :=
  fun s hs => h s hs s hs

theorem shifts_set {s : Session} (hs : s.workspace.Sound) :
    (set s : Act PUnit).Shifts p (set (s.later p)) := fun _ _ => ⟨rfl, hs⟩

/-- A change that does not look at the workspace. -/
theorem steady_modify {f : Session → Session}
    (h : ∀ s, f (s.later p) = (f s).later p ∧ (f s).workspace = s.workspace) :
    (modify f : Act PUnit).Steady p := by
  intro s hs
  rw [modify_apply, modify_apply, (h s).1]
  exact ⟨rfl, by rwa [(h s).2]⟩

theorem steady_write (text : String) : (write text).Steady p := fun _ hs => ⟨rfl, hs⟩

theorem steady_report (failure : Failure) (source : String) : (report failure source).Steady p :=
  fun _ hs => ⟨rfl, hs⟩

theorem Shifts.proceed {act act' : Act Unit} (h : act.Shifts p act') :
    (act >>= fun _ => pure .proceed : Act Flow).Shifts p (act' >>= fun _ => pure .proceed) :=
  h.bind fun _ => steady_pure Flow.proceed

theorem steady_if (on : Bool) {act : Act Unit} (h : act.Steady p) :
    (if on then act else pure () : Act Unit).Steady p := by
  split
  · exact h
  · exact steady_pure ()

/-- A tree that has the same text later is sent to the same displays. -/
theorem shifts_display (file : String) {render render' : Markup → String}
    (h : ∀ m, render' m = render m) : (display file render).Shifts p (display file render') := by
  obtain rfl : render' = render := funext h
  refine shifts_get fun s _ => ?_
  dsimp only [Session.later]
  cases s.disk.write file (Markup.document (render' .qtree)) with
  | ok disk =>
    have hwritten := steady_if (p := p) s.settings.displays.pdf
      (Shifts.bind (steady_modify (f := fun s => { s with disk := disk }) fun _ => ⟨rfl, rfl⟩)
        fun _ => steady_write ("wrote " ++ file ++ "\n"))
    split
    · exact (steady_write _).bind fun _ => hwritten
    · exact hwritten
  | error e =>
    have hfailed := steady_if (p := p) s.settings.displays.pdf (steady_throw (.disk e))
    split
    · exact (steady_write _).bind fun _ => hfailed
    · exact hfailed

/-! ## Runs -/

theorem steady_processSyntax (level : Level) (input : String) {use : Parsed → Act Unit}
    (h : ∀ parsed, (use parsed).Shifts p (use (parsed.later p.nodes))) :
    (processSyntax level input use).Steady p := by
  refine shifts_get fun s _ => ?_
  rw [show (s.later p).workspace.parse input level = _ from s.workspace.parse_later p input level]
  cases s.workspace.parse input level with
  | error e => exact steady_report _ _
  | ok parsed => exact h parsed

theorem steady_processRun (level : Level) (input : String) {use : Option Value → Trace → Act Unit}
    (h : ∀ value trace,
      (use value trace).Shifts p (use (value.map (Value.later p)) (trace.later p))) :
    (processRun level input use).Steady p := by
  refine shifts_get fun s hs => ?_
  have hsound : (s.workspace.run input level defaultLimit true).2.Sound :=
    hs.runInput ⟨input, level, defaultLimit⟩
  rw [show (s.later p).workspace.run input level defaultLimit true = _ from
    Workspace.run_later p hs input level defaultLimit true]
  revert hsound
  rcases s.workspace.run input level defaultLimit true with ⟨outcome, workspace⟩
  intro hsound
  refine (shifts_set (s := { s with workspace }) hsound).bind fun _ => ?_
  cases outcome with
  | error e => exact steady_report _ _
  | ok run =>
    obtain ⟨parsed, outcome, trace⟩ := run
    cases outcome with
    | error o => exact steady_report _ _
    | ok value => exact h value trace

/-- **A run of an input answers later what it answers before,** through every process. -/
theorem steady_process (process : InputProcess) (level : Level) (input : String) :
    (Act.process process level input).Steady p := by
  unfold Act.process
  cases process with
  | parse =>
    refine steady_processSyntax level input fun parsed => ?_
    rw [show (parsed.later p.nodes).root.text = _ from parsed.root.text_later p.nodes]
    exact steady_write _
  | parseTree =>
    refine steady_processSyntax level input fun parsed => shifts_get fun s _ => ?_
    exact shifts_display _ fun m => parsed.root.syntaxTree_later p.nodes _ m
  | eval =>
    refine steady_processRun level input fun value _ => ?_
    cases value with
    | none => exact steady_pure ()
    | some v =>
      simp only [Option.map_some, Value.text_later]
      exact steady_write _
  | type =>
    refine steady_processRun level input fun value _ => ?_
    cases value with
    | none => exact steady_write _
    | some v =>
      simp only [Option.map_some, Value.type_later]
      exact steady_write _
  | trace =>
    refine steady_processRun level input fun _ trace => ?_
    rw [Trace.listing_later]
    exact steady_write _
  | evalTree =>
    refine steady_processRun level input fun _ trace => shifts_get fun s hs => ?_
    exact shifts_display _ fun m =>
      Scene.evaluationTree_later (s := ⟨s.workspace.heap, trace, s.settings.verbosity⟩) p
        hs.1.outer_lt m

/-! ## Commands -/

theorem steady_withInput (command : Command) (rest : String) {use : String → Act Unit}
    (h : (use rest).Steady p) : (withInput command rest use).Steady p := by
  by_cases hrest : rest = ""
  · rw [hrest]
    exact steady_throw _
  · rw [withInput_of_ne hrest]
    exact h

theorem steady_changeSettings (change : Settings → Settings.Change) :
    (changeSettings change).Steady p := by
  intro s hs
  rw [changeSettings_apply, changeSettings_apply]
  exact ⟨rfl, hs⟩

theorem steady_help (rest : String) : (help rest).Steady p := by
  refine shifts_get fun s _ => ?_
  by_cases hrest : rest = ""
  · rw [hrest]
    exact steady_write _
  · simp only [beq_iff_eq, hrest, if_false, Session.later]
    cases s.commands.usage? (String.ofList (rest.toList.dropWhile (· == ':'))) with
    | some usage => exact steady_write _
    | none => exact steady_throw _

/-- The list of bindings shows names, types and texts. -/
theorem steady_list : list.Steady p := by
  refine shifts_get fun s _ => ?_
  have hlines : (s.later p).workspace.bindings.map (fun b => bindingLine b.1 b.2) =
      s.workspace.bindings.map fun b => bindingLine b.1 b.2 := by
    rw [show (s.later p).workspace.bindings = _ from s.workspace.bindings_later p, Bindings.later,
      List.map_map]
    refine List.map_congr_left fun b _ => ?_
    simp [bindingLine]
  rw [hlines]
  exact steady_write _

theorem steady_clear :
    (modify fun s => { s with workspace := s.workspace.cleared } : Act PUnit).Steady p := by
  intro s hs
  refine ⟨?_, hs.cleared⟩
  rw [modify_apply, modify_apply]
  simp only [Session.later, Workspace.later_cleared]

theorem steady_command (command : Command) (rest : String) :
    (Act.command command rest).Steady p := by
  have hlevel : ∀ level : Level, (withInput command rest fun input => do
      let s ← get
      process s.settings.process level input).Steady p :=
    fun level => steady_withInput command rest (shifts_get fun s _ => steady_process _ level rest)
  have hthrough : ∀ through : InputProcess, (withInput command rest fun input => do
      let s ← get
      process through s.settings.level input).Steady p :=
    fun through => steady_withInput command rest (shifts_get fun s _ => steady_process through _ rest)
  rw [Act.command]
  generalize command.action = action
  cases action with
  | quit => exact steady_pure _
  | help => exact (steady_help rest).proceed
  | list => exact steady_list.proceed
  | clear => exact steady_clear.proceed
  | clearScreen => exact (steady_write _).proceed
  | paste =>
    refine Shifts.proceed (steady_modify ?_)
    exact fun s => ⟨rfl, rfl⟩
  | expression => exact (hlevel .expression).proceed
  | statement => exact (hlevel .statement).proceed
  | program => exact (hlevel .program).proceed
  | parse => exact (hthrough .parse).proceed
  | parseTree => exact (hthrough .parseTree).proceed
  | eval => exact (hthrough .eval).proceed
  | type => exact (hthrough .type).proceed
  | trace => exact (hthrough .trace).proceed
  | evalTree => exact (hthrough .evalTree).proceed
  | settings => exact shifts_get fun s _ => (steady_write _).proceed
  | set | unset => exact (steady_withInput command rest (steady_changeSettings _)).proceed
  | reset => exact (steady_changeSettings _).proceed

/-! ## Lines -/

theorem steady_collect (buffer line : String) : (collect buffer line).Steady p := by
  unfold collect
  split
  · refine Shifts.bind (steady_modify fun s => ⟨rfl, rfl⟩) fun _ => ?_
    split
    · refine Shifts.bind (shifts_get fun s _ => ?_) fun _ => steady_pure _
      exact steady_process _ _ buffer
    · exact steady_pure _
  · refine Shifts.proceed (steady_modify ?_)
    exact fun s => ⟨rfl, rfl⟩

/-- **A line is handled later as it is before.** -/
theorem steady_handle (line : String) : (handle line).Steady p := by
  refine shifts_get fun s _ => ?_
  rw [show (s.later p).paste = s.paste from rfl]
  cases s.paste with
  | some buffer => exact steady_collect buffer line
  | none =>
    dsimp only
    split
    · exact steady_pure _
    · refine shifts_get fun s _ => ?_
      rw [show (s.later p).commands = s.commands from rfl]
      cases s.commands.get? _ with
      | none => exact steady_throw _
      | some command => exact steady_command command _
    · exact Shifts.proceed (shifts_get fun s _ => steady_process _ _ _)

end Act

/-! ## Sessions -/

namespace Session

/-- What is seen of the handling of a line: what comes of it and what it writes, and then whether lines
are being collected, what asks for the next line, and the files. -/
structure Answer where
  result : Except CommandError Flow
  written : String
  isPasting : Bool
  prompt : String
  disk : Disk

/-- What a session answers to lines, where what was written is taken away before each of them. -/
def answers (s : Session) : List String → List Answer
  | [] => []
  | line :: more =>
    let (result, s') := { s with output := "" }.handle line
    ⟨result, s'.output, s'.isPasting, s'.prompt, s'.disk⟩ :: s'.answers more

variable {s : Session} {line rest : String}

/-- What was written before does not matter. -/
theorem answers_output (s : Session) (text : String) (lines : List String) :
    { s with output := text }.answers lines = s.answers lines := by
  cases lines <;> rfl

/-- **Answers do not show what was there before the workspace began.** -/
theorem answers_later (p : Past) (hs : s.workspace.Sound) (lines : List String) :
    (s.later p).answers lines = s.answers lines := by
  induction lines generalizing s with
  | nil => rfl
  | cons line lines ih =>
    obtain ⟨hhandle, hsound⟩ :=
      Act.steady_handle (p := p) line { s with output := "" } hs
    rw [answers, answers]
    simp only [handle]
    rw [show ({ s.later p with output := "" } : Session) = { s with output := "" }.later p from rfl,
      hhandle]
    exact congrArg (_ :: ·) (ih hsound)

theorem handle_of_asks_clear (h : s.Asks line .clear rest) :
    s.handle line = (.ok .proceed, { s with workspace := s.workspace.cleared }) := by
  obtain ⟨hpaste, name, command, hparts, hget, haction⟩ := h
  rw [handle_of_command hpaste hparts, hget]
  simp only [Act.command, haction]
  rfl

/-- A new session in a directory that holds files. -/
def newIn (disk : Disk) (settings : Settings) (inColour : Bool) : Session :=
  { new settings inColour with disk }

theorem newIn_eq (disk : Disk) (settings : Settings) (inColour : Bool) :
    newIn disk settings inColour = ⟨.empty, settings, .standard, disk, inColour, none, ""⟩ := by
  simp only [newIn, new]

/-- A new session with the settings of another one, in the same directory. -/
def renewed (s : Session) : Session := newIn s.disk s.settings s.inColour

/-- On a cleared workspace a session that has the commands of a new one answers like a new one: the
cleared workspace is an empty one that begins later, and all else is the same. -/
theorem answers_cleared (hpaste : s.paste = none) (hcommands : s.commands = .standard)
    (lines : List String) :
    { s with workspace := s.workspace.cleared }.answers lines = s.renewed.answers lines := by
  have hlater : { s with workspace := s.workspace.cleared } =
      { s.renewed.later ⟨s.workspace.heap, s.workspace.nextNode⟩ with output := s.output } := by
    simp only [Workspace.cleared_eq_later, renewed, newIn_eq, later, hpaste, hcommands]
  rw [hlater, answers_output]
  exact answers_later _ Workspace.sound_empty lines

/-- **`clear` forgets everything that was evaluated.** After any lines, unless they end while lines are
being collected, a line `:clear` or `:c` writes nothing, and to all further lines the session answers
like a new one with the same settings in the same directory. -/
theorem clear_forgets (disk : Disk) (settings : Settings) (inColour : Bool) (history : List String) :
    let s := ((newIn disk settings inColour).handleAll history).2
    s.paste = none → ∀ line name rest, commandParts? line = some (name, rest) →
      name ∈ ["clear", "c"] →
        let cleared := (s.handle line).2
        (s.handle line).1 = .ok .proceed ∧ cleared.output = s.output ∧
          cleared.prompt = s.renewed.prompt ∧ cleared.disk = s.renewed.disk ∧
          ∀ lines, cleared.answers lines = s.renewed.answers lines := by
  have hnew : (newIn disk settings inColour).commands = .standard := by rw [newIn_eq]
  have hcommands := (handleAll_keeps (newIn disk settings inColour) history).1.trans hnew
  generalize ((newIn disk settings inColour).handleAll history).2 = s at hcommands
  dsimp only
  intro hpaste line name rest hparts hname
  have hstandard : (CommandSet.standard.get? name).map (·.action) = some .clear := by
    simp only [List.mem_cons, List.not_mem_nil, or_false] at hname
    rcases hname with rfl | rfl <;> decide +kernel
  obtain ⟨command, hget, haction⟩ := Option.map_eq_some_iff.mp hstandard
  have hasks : s.Asks line .clear rest :=
    ⟨hpaste, name, command, hparts, by rw [hcommands, hget], haction⟩
  rw [handle_of_asks_clear hasks]
  refine ⟨rfl, rfl, ?_, rfl, answers_cleared hpaste hcommands⟩
  simp [prompt, isPasting, renewed, newIn_eq, hpaste]

/-- Settings under which a line is answered by the type of its value. -/
def typeSettings : Settings := { Settings.default with process := .type }

/-- A name that is bound has the type of its value, and after `:c` there is none. -/
theorem clear_forgets_binding :
    let s := ((newIn .empty typeSettings false).handleAll ["let a = 1;"]).2
    s.paste = none ∧ commandParts? ":c" = some ("c", "") ∧ "c" ∈ ["clear", "c"] ∧
      s.answers ["a"] = [⟨.ok .proceed, "INTEGER\n", false, ">> ", .empty⟩] ∧
      (s.handle ":c").2.answers ["a"] = [⟨.ok .proceed, "ERROR\n", false, ">> ", .empty⟩] := by
  -- neither line is a command, so the commands need not be computed
  have hrun : ∀ commands : CommandSet,
      let s := ((⟨.empty, typeSettings, commands, .empty, false, none, ""⟩ : Session).handleAll
        ["let a = 1;"]).2
      s.paste = none ∧ s.answers ["a"] = [⟨.ok .proceed, "INTEGER\n", false, ">> ", .empty⟩] ∧
        (⟨.empty, s.settings, commands, s.disk, s.inColour, none, ""⟩ : Session).answers ["a"] =
          [⟨.ok .proceed, "ERROR\n", false, ">> ", .empty⟩] :=
    fun commands => ⟨by cbv, by cbv, by cbv⟩
  have hparts : commandParts? ":c" = some ("c", "") := by cbv
  have hname : "c" ∈ ["clear", "c"] := by decide
  have hforgets := clear_forgets .empty typeSettings false ["let a = 1;"]
  rw [newIn_eq] at hforgets ⊢
  obtain ⟨hpaste, hbound, hfresh⟩ := hrun .standard
  obtain ⟨_, _, _, _, hanswers⟩ := hforgets hpaste ":c" "c" "" hparts hname
  refine ⟨hpaste, hparts, hname, hbound, (hanswers ["a"]).trans ?_⟩
  rw [renewed, newIn_eq]
  exact hfresh

end Session

end TraceTree

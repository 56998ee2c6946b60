import Mathlib
import TraceTree.Proofs.Session.Handling

set_option autoImplicit false

/-! # Settings that cannot be changed as asked

`set` reads a value before it stores it, and a value that cannot be read changes nothing. Displays
are the exception: the arguments are carried out one after the other while they are being read, so
what stands before the first invalid one has been done by then (`Settings.toggleDisplays_eq`).

What is left of such a failing change is said by `Settings.afterFailure`. Since the last switch of a
display decides about it (`Displays.isOn_switchAll`), nothing has changed exactly if each display
that was switched was last switched to what it had been (`Displays.switchAll_eq_self`). -/

namespace TraceTree

/-! ## Switching displays -/

/-- Whether a display is on. -/
def Displays.isOn (d : Displays) : Display → Bool
  | .console => d.console
  | .pdf => d.pdf

/-- Whether the display that an argument names is to be on, and the name. -/
def Display.readSign (argument : String) : Bool × String :=
  match argument.toList with
  | '+' :: rest => (true, String.ofList rest)
  | '-' :: rest => (false, String.ofList rest)
  | _ => (true, argument)

/-- What an argument asks for: a display, and whether it is to be on. -/
def Display.readSwitch? (argument : String) : Option (Display × Bool) :=
  (Display.ofName? (readSign argument).2).map (·, (readSign argument).1)

/-- What the arguments before the first invalid one ask for. -/
def Display.readSwitches (arguments : List String) : List (Display × Bool) :=
  (arguments.takeWhile (fun argument => (readSwitch? argument).isSome)).filterMap readSwitch?

namespace Displays

variable {d d' : Displays} {switches : List (Display × Bool)}

theorem ext_isOn (h : ∀ display, d.isOn display = d'.isOn display) : d = d' := by
  cases d
  cases d'
  simpa [isOn] using And.intro (h .console) (h .pdf)

/-- Switch displays in order. -/
def switchAll (d : Displays) (switches : List (Display × Bool)) : Displays :=
  switches.foldl (fun d (display, on) => d.switch display on) d

@[simp] theorem switchAll_nil (d : Displays) : d.switchAll [] = d := rfl

@[simp] theorem switchAll_cons (d : Displays) (display : Display) (on : Bool)
    (switches : List (Display × Bool)) :
    d.switchAll ((display, on) :: switches) = (d.switch display on).switchAll switches := rfl

theorem isOn_switch (d : Displays) (display other : Display) (on : Bool) :
    (d.switch display on).isOn other = if display = other then on else d.isOn other := by
  cases display <;> cases other <;> simp [switch, isOn]

/-- What the last switch of a display asks for. -/
def lastSwitch? (switches : List (Display × Bool)) (display : Display) : Option Bool :=
  ((switches.filter (fun s => s.1 = display)).getLast?).map (·.2)

/-- **The last switch of a display decides** whether it is on; without one it stays as it is. -/
theorem isOn_switchAll (d : Displays) (switches : List (Display × Bool)) (display : Display) :
    (d.switchAll switches).isOn display =
      (lastSwitch? switches display).getD (d.isOn display) := by
  induction switches generalizing d with
  | nil => simp [lastSwitch?]
  | cons first more ih =>
    obtain ⟨other, on⟩ := first
    rw [switchAll_cons, ih, isOn_switch]
    by_cases h : other = display
    · -- the first switch counts if none of the others is of this display
      cases hmore : (more.filter (fun s => s.1 = display)).getLast? <;>
        simp [lastSwitch?, h, hmore, List.getLast?_cons]
    · simp [lastSwitch?, h]

/-- Switching displays changes nothing if the last switch of each display asks for what it is. -/
theorem switchAll_eq_self :
    d.switchAll switches = d ↔
      ∀ display, ∀ on ∈ lastSwitch? switches display, on = d.isOn display := by
  have hon (display : Display) : (d.switchAll switches).isOn display = d.isOn display ↔
      ∀ on ∈ lastSwitch? switches display, on = d.isOn display := by
    rw [isOn_switchAll]
    cases lastSwitch? switches display <;> simp
  constructor
  · intro h display
    rw [← hon, h]
  · intro h
    exact ext_isOn fun display => (hon display).2 (h display)

end Displays

/-! ## Failing changes -/

namespace Settings

variable {s : Settings} {name : String} {arguments : List String} {e : SettingsError}

theorem toggleDisplay_eq (s : Settings) (argument : String) :
    s.toggleDisplay argument =
      match Display.readSwitch? argument with
      | some (display, on) => (.ok (), { s with displays := s.displays.switch display on })
      | none => (.error (.invalidDisplay argument), s) := by
  rw [toggleDisplay]
  split
  next on name hname =>
    -- the sign is read in place there, by the same match
    have hsign : Display.readSign argument = (on, name) := hname
    rw [Display.readSwitch?, hsign]
    cases Display.ofName? name <;> rfl

/-- **Displays are switched up to the first invalid argument**, which is the one reported. -/
theorem toggleDisplays_eq (s : Settings) (arguments : List String) :
    s.toggleDisplays arguments =
      (match arguments.find? (fun argument => (Display.readSwitch? argument).isNone) with
        | some argument => .error (.invalidDisplay argument)
        | none => .ok (),
      { s with displays := s.displays.switchAll (Display.readSwitches arguments) }) := by
  induction arguments generalizing s with
  | nil => rfl
  | cons argument more ih =>
    rw [toggleDisplays, toggleDisplay_eq]
    cases h : Display.readSwitch? argument with
    | none => simp [h, Display.readSwitches]
    | some switch =>
      obtain ⟨display, on⟩ := switch
      simp [h, ih, Display.readSwitches]

theorem store_of_error {α : Type} {value : Except SettingsError α} {put : α → Settings}
    (h : (s.store value put).1 = .error e) : (s.store value put).2 = s := by
  cases value with
  | ok a => cases h
  | error e => rfl

/-- A value that cannot be read is not stored. -/
theorem setTo_of_error {setting : Setting} {value : String} (hne : setting ≠ .displays)
    (h : (s.setTo setting value).1 = .error e) : (s.setTo setting value).2 = s := by
  cases setting with
  | level => exact store_of_error h
  | process => exact store_of_error h
  | verbosity => exact store_of_error h
  | displays => exact absurd rfl hne
  | prompt => cases h
  | pfile => cases h
  | efile => cases h

/-- What the settings are after a `set` that fails. -/
def afterFailure (s : Settings) (name : String) (arguments : List String) : Settings :=
  if Setting.ofName? name = some .displays then
    { s with displays := s.displays.switchAll (Display.readSwitches arguments) }
  else s

/-- **A `set` that fails** keeps all settings but the displays, which are switched up to the first
invalid argument if it was they that were to be set. -/
theorem set_of_error (h : (s.set name arguments).1 = .error e) :
    (s.set name arguments).2 = s.afterFailure name arguments := by
  rw [set] at h ⊢
  rw [afterFailure]
  cases hname : Setting.ofName? name with
  | none => simp
  | some setting =>
    simp only [hname] at h ⊢
    by_cases hnone : arguments = []
    · simp [hnone, Display.readSwitches]
    by_cases hdisplays : setting = .displays
    · simp [hnone, hdisplays, toggleDisplays_eq]
    · simp only [hnone, hdisplays, List.isEmpty_iff, if_false, Option.some.injEq] at h ⊢
      exact setTo_of_error hdisplays h

/-- A failing `set` leaves no mark: either it was not about the displays, or each display it
switched it last switched to what it had been. -/
def NoMark (s : Settings) (name : String) (arguments : List String) : Prop :=
  Setting.ofName? name = some .displays →
    ∀ display, ∀ on ∈ Displays.lastSwitch? (Display.readSwitches arguments) display,
      on = s.displays.isOn display

theorem afterFailure_eq_self : s.afterFailure name arguments = s ↔ s.NoMark name arguments := by
  rw [afterFailure, NoMark, ← Displays.switchAll_eq_self]
  by_cases h : Setting.ofName? name = some .displays
  · simp only [h, if_true, forall_const]
    constructor
    · intro heq
      exact congrArg displays heq
    · intro heq
      rw [heq]
  · simp [h]

end Settings

/-! ## Lines that fail -/

theorem Act.changeSettings_apply (change : Settings → Settings.Change) (s : Session) :
    Act.changeSettings change s =
      ((change s.settings).1.mapError .settings, { s with settings := (change s.settings).2 }) := by
  simp only [Act.changeSettings, Act.bind_apply, Act.get_apply, Act.set_apply]
  cases (change s.settings).1 <;> rfl

/-- A `set` line that fails changes the settings as the failing `set` does, and nothing else. -/
theorem Session.handle_set_of_error {s : Session} {line name rest : String} {command : Command}
    {e : CommandError} (hpaste : s.paste = none) (hline : commandParts? line = some (name, rest))
    (hcommand : s.commands.get? name = some command) (haction : command.action = .set)
    (h : (s.handle line).1 = .error e) :
    (s.handle line).2 =
      { s with
        settings :=
          s.settings.afterFailure ((Text.words rest).headD "") (Text.words rest).tail } := by
  rw [handle_of_command hpaste hline, hcommand] at h ⊢
  simp only [Act.command, haction, Act.bind_apply] at h ⊢
  by_cases hrest : rest = ""
  · -- without a text nothing is set
    subst hrest
    have hnone : Setting.ofName? ((Text.words "").headD "") = none := by decide +kernel
    simp only [Settings.afterFailure, hnone]
    rfl
  · simp only [Act.withInput_of_ne hrest, Act.changeSettings_apply] at h ⊢
    cases hset : s.settings.set ((Text.words rest).headD "") (Text.words rest).tail with
    | mk result settings =>
      simp only [hset] at h ⊢
      cases result with
      | ok => cases h
      | error f =>
        have hsettings := Settings.set_of_error (congrArg Prod.fst hset)
        rw [hset] at hsettings
        rw [← hsettings]
        rfl

/-- **What a failing `set` leaves behind.** A `set` that fails changes nothing if and only if it was
not about the displays, or each display that was switched before the first invalid argument was last
switched to what it had been. The same holds of the settings of a session after a `set` line that
fails; all else in the session stays as it is in any case. -/
theorem Session.failing_set (settings : Settings) (s : Session) :
    (∀ (name : String) (arguments : List String) (e : SettingsError),
      (settings.set name arguments).1 = .error e →
        (settings.set name arguments).2 = settings.afterFailure name arguments ∧
        ((settings.set name arguments).2 = settings ↔ settings.NoMark name arguments)) ∧
    ∀ (line name rest : String) (command : Command) (e : CommandError),
      s.paste = none → commandParts? line = some (name, rest) →
      s.commands.get? name = some command → command.action = .set →
      (s.handle line).1 = .error e →
        (s.handle line).2 =
          { s with
            settings :=
              s.settings.afterFailure ((Text.words rest).headD "") (Text.words rest).tail } ∧
        ((s.handle line).2.settings = s.settings ↔
          s.settings.NoMark ((Text.words rest).headD "") (Text.words rest).tail) := by
  constructor
  · intro name arguments e h
    have hset := Settings.set_of_error h
    exact ⟨hset, by rw [hset, Settings.afterFailure_eq_self]⟩
  · intro line name rest command e hpaste hline hcommand haction h
    have hhandle := handle_set_of_error hpaste hline hcommand haction h
    exact ⟨hhandle, by rw [hhandle, ← Settings.afterFailure_eq_self]⟩

/-- The console is switched off although the second argument names no display. -/
theorem Settings.set_invalidDisplay_leaves_mark :
    default.set "displays" ["-console", "+screen"] =
        (.error (.invalidDisplay "+screen"), { default with displays := ⟨false, false⟩ }) ∧
      (default.set "displays" ["-console", "+screen"]).2 ≠ default := by
  decide +kernel

/-- The first display is switched on, which it was, so that nothing has changed. -/
theorem Session.failing_set_withoutMark :
    let s := Session.new .default false
    (Settings.default.set "displays" ["+c", "screen"]).2 = Settings.default ∧
      (s.handle ":set displays +c screen").2.settings = s.settings := by
  intro s
  have hmark : Settings.default.NoMark "displays" ["+c", "screen"] := by
    intro _ display
    cases display <;> decide +kernel
  obtain ⟨hsettings, hsession⟩ := failing_set .default s
  refine ⟨?_, ?_⟩
  · have hset : (Settings.default.set "displays" ["+c", "screen"]).1 =
        .error (.invalidDisplay "screen") := by decide +kernel
    exact (hsettings _ _ _ hset).2.2 hmark
  · have haction : ((Session.new .default false).commands.get? "set").map (·.action) =
        some .set := by decide +kernel
    obtain ⟨command, hcommand, haction⟩ := Option.map_eq_some_iff.1 haction
    have hline : commandParts? ":set displays +c screen" = some ("set", "displays +c screen") := by
      decide +kernel
    have hhandle : ((Session.new .default false).handle ":set displays +c screen").1 =
        .error (.settings (.invalidDisplay "screen")) := by decide +kernel
    have hwords : Text.words "displays +c screen" = ["displays", "+c", "screen"] := by
      decide +kernel
    refine (hsession _ _ _ _ _ rfl hline hcommand haction hhandle).2.2 ?_
    rw [hwords]
    exact hmark

end TraceTree

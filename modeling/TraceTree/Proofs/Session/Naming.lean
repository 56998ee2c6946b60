import TraceTree.Proofs.Session.Switching

set_option autoImplicit false

/-! # The names of settings

A setting may be named with capital letters where it is given a value or restored
(`Setting.ofName?_eq_some_iff`), as a display may wherever it is named. Where a display is switched
off, the names of settings are compared as they are written. So all three ways of changing settings
know the same names but for those with capital letters (`Settings.names_known`). -/

namespace TraceTree

/-! ## Letters of either case -/

/-- The text is the word, in which any of the letters from a to z may have become capitals. -/
def SpelledAs (text word : String) : Prop :=
  List.Forall₂ (fun x y => x = y ∨ x = y.toUpper) text.toList word.toList

theorem SpelledAs.refl (word : String) : SpelledAs word word :=
  List.forall₂_same.mpr fun _ _ => .inl rfl

/-- The code of a capital letter is 32 less than that of the small one. -/
theorem toNat_toLower (x : Char) :
    x.toLower.toNat = if 65 ≤ x.toNat ∧ x.toNat ≤ 90 then x.toNat + 32 else x.toNat := by
  rw [Char.toLower]
  split
  · next h =>
    have hcode : 65 ≤ x.toNat ∧ x.toNat ≤ 90 := h
    have hadd : (x.val + ('a'.val - 'A'.val)).toNat = (x.toNat + 32) % 2 ^ 32 := UInt32.toNat_add ..
    rw [if_pos hcode, ← Char.toNat_val, hadd]
    omega
  · next h => exact (if_neg h).symm

theorem toNat_toUpper (x : Char) :
    x.toUpper.toNat = if 97 ≤ x.toNat ∧ x.toNat ≤ 122 then x.toNat - 32 else x.toNat := by
  rw [Char.toUpper]
  split
  · next h =>
    have hcode : 97 ≤ x.toNat ∧ x.toNat ≤ 122 := h
    have hadd : (x.val + ('A'.val - 'a'.val)).toNat = (x.toNat + (2 ^ 32 - 32)) % 2 ^ 32 :=
      UInt32.toNat_add ..
    rw [if_pos hcode, ← Char.toNat_val, hadd]
    omega
  · next h => exact (if_neg h).symm

/-- A small letter is what becomes of itself and of its capital, and of no other character. -/
theorem toLower_eq_iff {x y : Char} (hy : y.isLower = true) :
    x.toLower = y ↔ x = y ∨ x = y.toUpper := by
  have hsmall : 97 ≤ y.toNat ∧ y.toNat ≤ 122 := by
    simpa [Char.isLower, UInt32.le_iff_toNat_le] using hy
  simp only [← Char.toNat_inj, toNat_toLower, toNat_toUpper]
  split <;> omega

theorem toLower_eq_iff_spelledAs {text word : String}
    (hword : ∀ y ∈ word.toList, y.isLower = true) : text.toLower = word ↔ SpelledAs text word := by
  rw [← String.toList_inj, String.toLower, String.toList_map, SpelledAs]
  generalize text.toList = xs, word.toList = ys at hword ⊢
  induction xs generalizing ys with
  | nil => cases ys <;> simp
  | cons x xs ih =>
    cases ys with
    | nil => simp
    | cons y ys =>
      obtain ⟨hy, hys⟩ := List.forall_mem_cons.mp hword
      rw [List.map_cons, List.cons_eq_cons, List.forall₂_cons, toLower_eq_iff hy, ih ys hys]

/-! ## Names -/

namespace Setting

theorem isLower_of_mem_name (s : Setting) : ∀ y ∈ s.name.toList, y.isLower = true := by
  have hall : s.name.toList.all Char.isLower = true := by cases s <;> decide
  exact List.all_eq_true.mp hall

/-- **A setting is found by its name in letters of either case,** and no other text finds one. -/
theorem ofName?_eq_some_iff {text : String} {s : Setting} :
    ofName? text = some s ↔ SpelledAs text s.name := by
  rw [← toLower_eq_iff_spelledAs s.isLower_of_mem_name, ofName?]
  constructor
  · intro h
    have hname := List.find?_some h
    exact (beq_iff_eq.mp hname).symm
  · intro h
    rw [h]
    cases s <;> decide

theorem ofName?_eq_none_iff {text : String} :
    ofName? text = none ↔ ∀ s : Setting, ¬ SpelledAs text s.name := by
  simp only [Option.eq_none_iff_forall_ne_some, Ne, ofName?_eq_some_iff]

theorem mem_names_iff {text : String} : text ∈ all.map name ↔ ∃ s : Setting, text = s.name := by
  have hall (s : Setting) : s ∈ all := by cases s <;> decide
  simp [hall, eq_comm]

/-- The name of a setting names no display. -/
theorem display_ofName?_name (s : Setting) : Display.ofName? s.name = none := by
  cases s <;> decide +kernel

end Setting

/-! ## Changes by name -/

namespace Settings

variable {s : Settings} {name : String} {arguments : List String}

theorem store_ne_unknown {α : Type} {value : Except SettingsError α} {put : α → Settings}
    (h : value ≠ .error (.unknown name)) : (s.store value put).1 ≠ .error (.unknown name) := by
  cases value with
  | ok a => nofun
  | error e => simpa [store] using h

theorem toggleDisplays_ne_unknown (s : Settings) (arguments : List String) (name : String) :
    (s.toggleDisplays arguments).1 ≠ .error (.unknown name) := by
  rw [toggleDisplays_eq]
  dsimp only
  split <;> nofun

/-- Where a value cannot be given to a setting, the setting is known all the same. -/
theorem setTo_ne_unknown (s : Settings) (setting : Setting) (value name : String) :
    (s.setTo setting value).1 ≠ .error (.unknown name) := by
  cases setting with
  | level | process | verbosity =>
    refine store_ne_unknown ?_
    simp only [Level.read, InputProcess.read, Verbosity.read]
    split_ifs <;> nofun
  | displays => exact s.toggleDisplays_ne_unknown [value] name
  | prompt | pfile | efile => nofun

theorem set_eq_unknown_iff (harguments : arguments ≠ []) :
    (s.set name arguments).1 = .error (.unknown name) ↔
      ∀ setting : Setting, ¬ SpelledAs name setting.name := by
  rw [← Setting.ofName?_eq_none_iff, set]
  cases Setting.ofName? name with
  | none => simp
  | some setting =>
    have hgiven : arguments.isEmpty = false := List.isEmpty_eq_false_iff.mpr harguments
    simp only [hgiven, Bool.false_eq_true, if_false, reduceCtorEq, iff_false]
    split
    · exact s.toggleDisplays_ne_unknown arguments name
    · exact s.setTo_ne_unknown setting _ name

theorem reset_eq_unknown_iff :
    (s.reset (some name)).1 = .error (.unknown name) ↔
      ∀ setting : Setting, ¬ SpelledAs name setting.name := by
  rw [← Setting.ofName?_eq_none_iff, reset]
  cases Setting.ofName? name <;> simp

/-- What names no display cannot be switched off, whether or not it names a setting. -/
theorem unset_of_not_display (s : Settings) (hname : Display.ofName? name = none) :
    s.unset name =
      (.error (if name ∈ Setting.all.map Setting.name then .notUnsettable name
        else .unknown name), s) := by
  rw [unset, hname]
  simp only [List.contains_iff_mem]
  split <;> rfl

theorem unset_name (s : Settings) (setting : Setting) :
    s.unset setting.name = (.error (.notUnsettable setting.name), s) := by
  rw [unset_of_not_display s setting.display_ofName?_name,
    if_pos (Setting.mem_names_iff.mpr ⟨setting, rfl⟩)]

theorem unset_eq_unknown_iff (hname : Display.ofName? name = none) :
    (s.unset name).1 = .error (.unknown name) ↔ ∀ setting : Setting, name ≠ setting.name := by
  have hunknown : (s.unset name).1 = .error (.unknown name) ↔
      name ∉ Setting.all.map Setting.name := by
    rw [unset_of_not_display s hname]
    split <;> simp [*]
  rw [hunknown, Setting.mem_names_iff, not_exists]

/-- **Which names are known where settings are changed.** Of the texts that name no display, `reset`
and `set` know the names of the settings in letters of either case, and no others. `unset` knows the
names as they are written, and answers that these settings cannot be unset. So the three know the
same texts, unless a text is the name of a setting with a capital letter in it. -/
theorem names_known (s : Settings) {name : String} {arguments : List String}
    (hname : Display.ofName? name = none) (harguments : arguments ≠ []) :
    ((s.reset (some name)).1 = .error (.unknown name) ↔
      (s.set name arguments).1 = .error (.unknown name)) ∧
    ((s.set name arguments).1 = .error (.unknown name) ↔
      ∀ setting : Setting, ¬ SpelledAs name setting.name) ∧
    ((s.unset name).1 = .error (.unknown name) ↔ ∀ setting : Setting, name ≠ setting.name) ∧
    (∀ setting : Setting, s.unset setting.name = (.error (.notUnsettable setting.name), s)) ∧
    (((s.unset name).1 = .error (.unknown name) ↔
        (s.reset (some name)).1 = .error (.unknown name)) ↔
      ∀ setting : Setting, SpelledAs name setting.name → name = setting.name) := by
  refine ⟨?_, set_eq_unknown_iff harguments, unset_eq_unknown_iff hname, s.unset_name, ?_⟩
  · rw [reset_eq_unknown_iff, set_eq_unknown_iff harguments]
  · rw [unset_eq_unknown_iff hname, reset_eq_unknown_iff]
    constructor
    · intro hsame setting hspelled
      by_contra hne
      refine hsame.mp (fun other hother => hne ?_) setting hspelled
      -- a text is the name of one setting only
      have hfound := Setting.ofName?_eq_some_iff.mpr hspelled
      rw [hother, Setting.ofName?_eq_some_iff.mpr (.refl other.name)] at hfound
      rw [hother, Option.some.inj hfound]
    · intro hsame
      constructor
      · exact fun hnone setting hspelled => hnone setting (hsame setting hspelled)
      · rintro hnone setting rfl
        exact hnone setting (.refl setting.name)

/-- A setting that `reset` and `set` know, with a capital letter, is unknown to `unset`. -/
theorem unset_capital_unknown :
    Display.ofName? "Level" = none ∧
      default.unset "Level" = (.error (.unknown "Level"), default) ∧
      default.reset (some "Level") = (.ok (), default) ∧
      default.set "Level" ["e"] = (.ok (), { default with level := .expression }) := by
  decide +kernel

/-- What names no setting in either case of letters is unknown to all three. -/
theorem names_known_color :
    Display.ofName? "Color" = none ∧ ["red"] ≠ [] ∧
      (default.unset "Color").1 = .error (.unknown "Color") ∧
      (default.reset (some "Color")).1 = .error (.unknown "Color") ∧
      (default.set "Color" ["red"]).1 = .error (.unknown "Color") := by
  have hname : Display.ofName? "Color" = none := by decide +kernel
  have hnone : Setting.ofName? "Color" = none := by decide +kernel
  have hspelled := Setting.ofName?_eq_none_iff.mp hnone
  obtain ⟨hreset, hset, -, -, hsame⟩ := names_known default hname (List.cons_ne_nil "red" [])
  have hunset := hsame.mpr fun setting h => absurd h (hspelled setting)
  have hunknown := hset.mpr hspelled
  exact ⟨hname, List.cons_ne_nil _ _, hunset.mpr (hreset.mpr hunknown), hreset.mpr hunknown,
    hunknown⟩

end Settings

end TraceTree

import Mathlib.Data.List.DropRight
import TraceTree.Text.Split

set_option autoImplicit false

/-! # Cutting texts

What is known of a text from how it begins and what occurs in it: blanks are cut off where there are
any, a separator cuts a text in two, and replacing a word changes a text only where the word occurs.
What can be said of a text after a replacement is said by counting: a character that the new word has
less often than the old one gets lost with each occurrence (`Text.count_replaceFrom`). -/

namespace TraceTree.Text

/-! ## Blanks around a text -/

section

variable {cs ds : List Char}

theorem trimRight_eq_rdropWhile (cs : List Char) : trimRight cs = cs.rdropWhile isBlank := rfl

/-- A text with no outer blanks has none at either end. -/
theorem trimBoth_eq_self (h : trimBoth cs = cs) : trimLeft cs = cs ∧ trimRight cs = cs := by
  have hright : (trimBoth cs).length ≤ (trimLeft cs).length := by
    rw [trimBoth, trimRight_eq_rdropWhile]
    exact (List.rdropWhile_prefix isBlank _).length_le
  have hleft : trimLeft cs = cs := by
    refine (List.dropWhile_suffix isBlank).eq_of_length_le ?_
    rwa [h] at hright
  rw [trimBoth, hleft] at h
  exact ⟨hleft, h⟩

theorem trimLeft_cons {c : Char} (h : isBlank c = false) (cs : List Char) :
    trimLeft (c :: cs) = c :: cs := by
  simp [trimLeft, h]

theorem trimLeft_space (cs : List Char) : trimLeft (' ' :: cs) = trimLeft cs := by
  simp [trimLeft, show isBlank ' ' = true by decide]

/-- What stands behind is trimmed alone. -/
theorem trimRight_append (h : trimRight ds = ds) (hne : ds ≠ []) (cs : List Char) :
    trimRight (cs ++ ds) = cs ++ ds := by
  rw [trimRight_eq_rdropWhile, List.rdropWhile_eq_self_iff] at h ⊢
  intro _
  rw [List.getLast_append_of_ne_nil _ hne]
  exact h hne

theorem trimRight_eq_self (h : ∀ c ∈ cs, isBlank c = false) : trimRight cs = cs := by
  rw [trimRight_eq_rdropWhile, List.rdropWhile_eq_self_iff]
  intro hne
  simp [h _ (List.getLast_mem hne)]

end

/-! ## Pieces between separators -/

section

variable {sep : Char → Bool} {cs before : List Char} {c : Char}

theorem splitAll_eq_self (h : ∀ c ∈ cs, sep c = false) : splitAll sep cs = [cs] := by
  induction cs with
  | nil => rfl
  | cons c cs ih =>
    obtain ⟨hc, hcs⟩ := List.forall_mem_cons.mp h
    simp [splitAll, hc, ih hcs]

theorem splitAll_append_cons (h : ∀ d ∈ before, sep d = false) (hc : sep c = true)
    (cs : List Char) : splitAll sep (before ++ c :: cs) = before :: splitAll sep cs := by
  induction before with
  | nil => simp [splitAll, hc]
  | cons d before ih =>
    obtain ⟨hd, hbefore⟩ := List.forall_mem_cons.mp h
    simp [splitAll, hd, ih hbefore]

end

/-! ## Replacing a word -/

section

variable {word new cs before : List Char} {c : Char}

/-- A text is not changed where the word does not occur. -/
theorem replaceFrom_eq_self (h : ¬ word <:+: cs) : replaceFrom word new 0 cs = cs := by
  induction cs with
  | nil => rfl
  | cons c cs ih =>
    have hstart : word.isPrefixOf (c :: cs) = false := by
      rw [← Bool.not_eq_true, List.isPrefixOf_iff_prefix]
      exact fun hbegins => h hbegins.isInfix
    have hlater : ¬ word <:+: cs := fun hoccurs => h (hoccurs.trans (List.suffix_cons c cs).isInfix)
    simp [replaceFrom, hstart, ih hlater]

/-- What is to be passed over is not looked at. -/
theorem replaceFrom_skip (skip : Nat) (cs : List Char) :
    replaceFrom word new skip cs = replaceFrom word new 0 (cs.drop skip) := by
  induction skip generalizing cs with
  | zero => rfl
  | succ skip ih =>
    cases cs with
    | nil => simp [replaceFrom]
    | cons c cs => simpa [replaceFrom] using ih cs

/-- An occurrence at the beginning of a text is replaced. -/
theorem replaceFrom_append (hword : word ≠ []) (cs : List Char) :
    replaceFrom word new 0 (word ++ cs) = new ++ replaceFrom word new 0 cs := by
  obtain ⟨c, rest, rfl⟩ := List.exists_cons_of_ne_nil hword
  have hbegins : (c :: rest).isPrefixOf (c :: (rest ++ cs)) = true := by simp
  rw [List.cons_append, replaceFrom, hbegins, replaceFrom_skip]
  simp

/-- Where the word cannot begin, the text is kept. -/
theorem replaceFrom_append_of_not_mem (h : c ∉ before) (cs : List Char) :
    replaceFrom (c :: word) new 0 (before ++ cs) = before ++ replaceFrom (c :: word) new 0 cs := by
  induction before with
  | nil => rfl
  | cons d before ih =>
    obtain ⟨hne, hbefore⟩ := not_or.mp (mt List.mem_cons.mpr h)
    have hstart : (c :: word).isPrefixOf (d :: (before ++ cs)) = false := by
      simp [List.isPrefixOf_cons_cons, hne]
    rw [List.cons_append, replaceFrom, hstart, ih hbefore]
    simp

/-- All characters of the new text are in the word for the old one or in the text. -/
theorem mem_replaceFrom {skip : Nat} (h : c ∈ replaceFrom word new skip cs) : c ∈ new ∨ c ∈ cs := by
  fun_induction replaceFrom word new skip cs with
  | case1 => exact Or.inr h
  | case2 _ d cs ih => exact (ih h).imp_right (List.mem_cons_of_mem d)
  | case3 d cs _ ih =>
    rcases List.mem_append.mp h with h | h
    · exact Or.inl h
    · exact (ih h).imp_right (List.mem_cons_of_mem d)
  | case4 d cs _ ih =>
    rcases List.mem_cons.mp h with rfl | h
    · exact Or.inr List.mem_cons_self
    · exact (ih h).imp_right (List.mem_cons_of_mem d)

/-- A character that the new word has less often than the old one gets lost where a word is
replaced. -/
theorem count_replaceFrom (h : new.count c < word.count c) (cs : List Char) :
    (replaceFrom word new 0 cs).count c ≤ cs.count c ∧
      (word <:+: cs → (replaceFrom word new 0 cs).count c < cs.count c) := by
  have hword : word ≠ [] := by
    rintro rfl
    exact absurd h (Nat.not_lt_zero _)
  induction hn : cs.length using Nat.strongRecOn generalizing cs with
  | _ n ih =>
  cases cs with
  | nil => exact ⟨Nat.le_refl _, fun hoccurs => absurd (List.infix_nil.mp hoccurs) hword⟩
  | cons d cs =>
    by_cases hbegins : word <+: d :: cs
    · -- the word at the beginning is replaced, and what is behind it is shorter
      obtain ⟨rest, hrest⟩ := hbegins
      have hlength := congrArg List.length hrest
      have hpos := List.length_pos_of_ne_nil hword
      simp only [List.length_append, List.length_cons] at hlength hn
      have hrest_le := (ih rest.length (by omega) rest rfl).1
      rw [← hrest, replaceFrom_append hword, List.count_append, List.count_append]
      exact ⟨by omega, fun _ => by omega⟩
    · have hstart : word.isPrefixOf (d :: cs) = false := by
        rwa [← Bool.not_eq_true, List.isPrefixOf_iff_prefix]
      obtain ⟨hle, hlt⟩ := ih cs.length (by simp [← hn]) cs rfl
      have hkeep : replaceFrom word new 0 (d :: cs) = d :: replaceFrom word new 0 cs := by
        simp [replaceFrom, hstart]
      rw [hkeep, List.count_cons, List.count_cons]
      refine ⟨by omega, fun hoccurs => ?_⟩
      have hlater := (List.infix_cons_iff.mp hoccurs).resolve_left hbegins
      have := hlt hlater
      omega

end

end TraceTree.Text

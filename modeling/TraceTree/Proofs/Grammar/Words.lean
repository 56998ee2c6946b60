import TraceTree.Proofs.Grammar.Matching

set_option autoImplicit false

/-! # Names, reserved words and numbers

A word is cut off a text by longest match: it goes as far as the characters of names go. A reserved
word is taken only where it is the whole word, so it is never split off the front of a longer name;
any other word that does not begin with a digit is a name. A number goes as far as the digits go. -/

namespace TraceTree

open Pattern

/-- The longest part that could be a name or belong to one, at the beginning of a text. -/
def leadingWord (cs : List Char) : List Char := cs.takeWhile isNameChar

/-- The words that are not names. -/
def keywords : List String := ["let", "return", "fn", "if", "else", "true", "false"]

theorem keywords_chars : ∀ k ∈ keywords, ∀ x ∈ k.toList, isNameChar x = true := by
  have hall : ∀ k ∈ keywords, k.toList.all isNameChar = true := by decide
  exact fun k hk => List.all_eq_true.mp (hall k hk)

theorem keywords_free : ∀ u ∈ keywords, ∀ v ∈ keywords, u.toList <+: v.toList → u = v := by decide

/-- The characters of a name. -/
structure IsName (w : List Char) : Prop where
  start : ∃ x ∈ w.head?, isNameStart x = true
  chars : ∀ x ∈ w, isNameChar x = true
  free : ∀ k ∈ keywords, w ≠ k.toList

section

variable {w cs : List Char}

theorem leadingWord_append (hw : ∀ x ∈ w, isNameChar x = true) (hcs : leadingWord cs = []) :
    leadingWord (w ++ cs) = w := by
  rw [leadingWord, List.takeWhile_append_of_pos hw]
  exact (congrArg (w ++ ·) hcs).trans (List.append_nil w)

theorem leadingWord_eq_nil_iff : leadingWord cs = [] ↔ ∀ x ∈ cs.head?, isNameChar x = false := by
  cases cs with
  | nil => simp [leadingWord]
  | cons x cs => cases hx : isNameChar x <;> simp [leadingWord, hx]

theorem exists_of_leadingWord_ne_nil (h : leadingWord cs ≠ []) :
    ∃ x rest, cs = x :: rest ∧ isNameChar x = true := by
  cases cs with
  | nil => exact absurd rfl h
  | cons x rest =>
    cases hx : isNameChar x with
    | true => exact ⟨x, rest, rfl, hx⟩
    | false => exact absurd (leadingWord_eq_nil_iff.mpr fun y hy => by rwa [← Option.some.inj hy]) h

/-- What is left of a text begins with no character that could still be taken. -/
theorem head?_dropWhile (accepts : Char → Bool) (cs : List Char) :
    ∀ x ∈ (cs.dropWhile accepts).head?, accepts x = false := by
  intro x hx
  have hhead := List.head?_dropWhile_not accepts cs
  rw [Option.mem_def] at hx
  simpa [hx] using hhead

/-- No name goes on after the leading word. -/
theorem leadingWord_dropWhile (cs : List Char) : leadingWord (cs.dropWhile isNameChar) = [] :=
  leadingWord_eq_nil_iff.mpr (head?_dropWhile isNameChar cs)

theorem leadingWord_append_dropWhile (cs : List Char) :
    leadingWord cs ++ cs.dropWhile isNameChar = cs :=
  List.takeWhile_append_dropWhile

theorem dropWhile_append {accepts : Char → Bool} (hw : ∀ x ∈ w, accepts x = true)
    (hcs : ∀ x ∈ cs.head?, accepts x = false) : (w ++ cs).dropWhile accepts = cs := by
  rw [List.dropWhile_append_of_pos hw]
  cases cs with
  | nil => rfl
  | cons x cs => exact List.dropWhile_cons_of_neg (by simp [hcs x rfl])

theorem isNameChar_of_isNameStart {x : Char} (h : isNameStart x = true) : isNameChar x = true := by
  rw [isNameChar, h, Bool.true_or]

end

/-! ## Classes of characters -/

/-- Within an atomic rule the pattern takes one character of a class. -/
structure Pattern.IsClass (p : Pattern) (accepts : Char → Bool) : Prop where
  least : 0 < p.least
  takes : ∀ x cs, accepts x = true → p.Takes true (x :: cs) cs Nothing
  refuses : ∀ cs, (∀ x ∈ cs.head?, accepts x = false) → p.Refuses true cs

theorem Pattern.isClass_char (accepts : Char → Bool) : (char accepts).IsClass accepts where
  least := Nat.zero_lt_one
  takes _ cs h := takes_char h true cs
  refuses _ h := refuses_char h

theorem Pattern.isClass_identChar : (rule .identChar).IsClass isNameChar where
  least := Nat.zero_lt_one
  takes _ cs h := Takes.inside (r := .identChar) (takes_char h true cs)
  refuses _ h := Refuses.rule (refuses_char h)

/-- A repeated class goes as far as its characters do. -/
theorem Pattern.IsClass.takes_many {p : Pattern} {accepts : Char → Bool} (h : p.IsClass accepts)
    (cs : List Char) : (many p).Takes true cs (cs.dropWhile accepts) Nothing := by
  induction cs with
  | nil => exact (h.refuses [] (fun _ hx => nomatch hx)).many
  | cons x cs ih =>
    cases hx : accepts x with
    | true =>
      rw [List.dropWhile_cons_of_pos hx]
      exact (h.takes x cs hx).many h.least ih fun ps qs hps hqs => by rw [hps, hqs]; rfl
    | false =>
      rw [List.dropWhile_cons_of_neg (by simp [hx])]
      exact (h.refuses (x :: cs) fun y hy => by rwa [← Option.some.inj hy]).many

/-! ## Reserved words -/

/-- One of the words, where it is not the beginning of a longer name. -/
def Pattern.oneWordOf (s : String) (ss : List String) : Pattern :=
  .seq (oneOf (text s) (ss.map text)) (.unless (.rule .identChar))

section

variable {s : String} {ss : List String} {cs : List Char}

/-- The first of the words that the text begins with is taken. -/
theorem Pattern.takes_oneOf_text (h : ∃ w ∈ s :: ss, w.toList <+: cs) :
    ∃ w ∈ s :: ss, ∃ left, w.toList ++ left = cs ∧
      (oneOf (text s) (ss.map text)).Takes true cs left Nothing := by
  induction ss generalizing s with
  | nil =>
    obtain ⟨w, hw, left, rfl⟩ := h
    obtain rfl := List.mem_singleton.mp hw
    exact ⟨w, hw, left, rfl, takes_word _ true left⟩
  | cons s' ss ih =>
    by_cases hs : s.toList <+: cs
    · obtain ⟨left, rfl⟩ := hs
      exact ⟨s, List.mem_cons_self, left, rfl, (takes_word _ true left).choice _⟩
    · obtain ⟨w, hw, hprefix⟩ := h
      have hmem : w ∈ s' :: ss := by
        rcases List.mem_cons.mp hw with rfl | hmem
        · exact absurd hprefix hs
        · exact hmem
      obtain ⟨v, hv, left, htext, htakes⟩ := ih ⟨w, hmem, hprefix⟩
      exact ⟨v, List.mem_cons_of_mem _ hv, left, htext, (refuses_word hs).choice_takes htakes⟩

theorem Pattern.refuses_oneOf_text (h : ∀ w ∈ s :: ss, ¬ w.toList <+: cs) :
    (oneOf (text s) (ss.map text)).Refuses true cs := by
  induction ss generalizing s with
  | nil => exact refuses_word (h s List.mem_cons_self)
  | cons s' ss ih =>
    exact (refuses_word (h s List.mem_cons_self)).choice
      (ih fun w hw => h w (List.mem_cons_of_mem _ hw))

/-- Words are refused where none of them is the whole word. -/
theorem Pattern.refuses_oneWordOf (hchars : ∀ w ∈ s :: ss, ∀ x ∈ w.toList, isNameChar x = true)
    (h : ∀ w ∈ s :: ss, leadingWord cs ≠ w.toList) : (oneWordOf s ss).Refuses true cs := by
  by_cases hprefix : ∃ w ∈ s :: ss, w.toList <+: cs
  · obtain ⟨w, hw, left, rfl, htakes⟩ := takes_oneOf_text hprefix
    have hlonger : leadingWord left ≠ [] :=
      fun hleft => h w hw (leadingWord_append (hchars w hw) hleft)
    refine htakes.seq_refuses ?_
    obtain ⟨x, rest, rfl, hx⟩ := exists_of_leadingWord_ne_nil hlonger
    exact (isClass_identChar.takes x rest hx).unless
  · exact (refuses_oneOf_text fun w hw hw' => hprefix ⟨w, hw, hw'⟩).seq _

/-- Of words of which none begins with another, the one is taken that is the whole word. -/
theorem Pattern.takes_oneWordOf (hchars : ∀ w ∈ s :: ss, ∀ x ∈ w.toList, isNameChar x = true)
    (hfree : ∀ u ∈ s :: ss, ∀ v ∈ s :: ss, u.toList <+: v.toList → u = v)
    {w : String} (hw : w ∈ s :: ss) (hcs : leadingWord cs = []) :
    (oneWordOf s ss).Takes true (w.toList ++ cs) cs Nothing := by
  obtain ⟨v, hv, left, htext, htakes⟩ :=
    takes_oneOf_text ⟨w, hw, List.prefix_append w.toList cs⟩
  have hprefix : v.toList <+: w.toList := by
    have hword := leadingWord_append (hchars w hw) hcs
    rw [← htext, leadingWord, List.takeWhile_append_of_pos (hchars v hv)] at hword
    exact ⟨_, hword⟩
  obtain rfl := hfree v hv w hw hprefix
  obtain rfl := List.append_cancel_left htext
  have hend : (Pattern.unless (rule .identChar)).Takes true left left Nothing :=
    (isClass_identChar.refuses left (leadingWord_eq_nil_iff.mp hcs)).unless
  exact htakes.before hend

end

/-- The words that a rule is for, if it is one for some words. -/
def Rule.words : Rule → List String
  | kwLet => ["let"]
  | kwReturn => ["return"]
  | kwFn => ["fn"]
  | kwIf => ["if"]
  | kwElse => ["else"]
  | boolean => ["true", "false"]
  | keyword => keywords
  | _ => []

section

variable {r : Rule} {s : String} {w cs : List Char}

/-- A rule for words matches one of them that is not the beginning of a longer name. -/
theorem Rule.body_of_words (h : r.words ≠ []) : r.isSilent = false ∧ r.isAtomic = true ∧
    ∃ s ss, r.words = s :: ss ∧ r.body = Pattern.oneWordOf s ss := by
  cases r with
  | kwLet | kwReturn | kwFn | kwIf | kwElse | boolean | keyword =>
    exact ⟨rfl, rfl, _, _, rfl, rfl⟩
  | _ => exact absurd rfl h

theorem Rule.words_subset (r : Rule) : ∀ k ∈ r.words, k ∈ keywords := by
  cases r <;> decide

/-- A rule for words takes any of them, where it is the whole word. -/
theorem Rule.takes_words (r : Rule) (hs : s ∈ r.words) (hcs : leadingWord cs = []) :
    (rule r).Takes false (s.toList ++ cs) (afterBlanks false cs) (Token r s.toList) := by
  obtain ⟨hloud, hatomic, w, ws, hwords, hbody⟩ := body_of_words (List.ne_nil_of_mem hs)
  have hkeywords : ∀ k ∈ w :: ws, k ∈ keywords := hwords ▸ r.words_subset
  refine Takes.token hloud hatomic ?_
  rw [hbody]
  exact takes_oneWordOf (fun k hk => keywords_chars k (hkeywords k hk))
    (fun u hu v hv => keywords_free u (hkeywords u hu) v (hkeywords v hv)) (hwords ▸ hs) hcs

/-- A word is taken before a blank. -/
theorem Rule.takes_words_spaced (r : Rule) (hs : s ∈ r.words) (hcs : Solid cs) :
    (rule r).Takes false (s.toList ++ ' ' :: cs) cs (Token r s.toList) := by
  have htakes := r.takes_words hs (show leadingWord (' ' :: cs) = [] from rfl)
  rwa [afterBlanks_cons rfl, hcs.afterBlanks_eq] at htakes

/-- A rule for words refuses a text that begins with none of them. -/
theorem Rule.refuses_words (r : Rule) (hwords : r.words ≠ [])
    (h : ∀ k ∈ r.words, leadingWord cs ≠ k.toList) {atomic : Bool} :
    (rule r).Refuses atomic cs := by
  obtain ⟨-, hatomic, w, ws, hwords, hbody⟩ := body_of_words hwords
  refine Refuses.rule ?_
  rw [hatomic, Bool.or_true, hbody]
  exact refuses_oneWordOf (fun k hk => keywords_chars k (r.words_subset k (hwords ▸ hk)))
    (hwords ▸ h)

theorem Rule.refuses_otherWord (hs : r.words = [s]) (h : leadingWord cs ≠ s.toList)
    {atomic : Bool} : (rule r).Refuses atomic cs :=
  r.refuses_words (by simp [hs]) (by simpa [hs] using h)

/-- A rule that begins with a word is refused where another one stands. -/
theorem Rule.refuses_otherStart {first : Rule} {p : Pattern} (hbody : r.body = .seq (rule first) p)
    (hs : first.words = [s]) (h : leadingWord cs ≠ s.toList) : (rule r).Refuses false cs := by
  refine Refuses.rule ?_
  rw [hbody]
  exact (refuses_otherWord hs h).seq p

/-- The text of a truth value. -/
def truthText (value : Bool) : List Char := (if value then "true" else "false").toList

theorem takes_boolean (value : Bool) (hcs : leadingWord cs = []) :
    (rule .boolean).Takes false (truthText value ++ cs) (afterBlanks false cs)
      (Token .boolean (truthText value)) := by
  have hmem : (if value then "true" else "false") ∈ Rule.boolean.words := by cases value <;> decide
  exact Rule.boolean.takes_words hmem hcs

theorem refuses_boolean (h : ∀ value, leadingWord cs ≠ truthText value) :
    (rule .boolean).Refuses false cs :=
  Rule.boolean.refuses_words (by decide)
    (List.forall_mem_cons.mpr ⟨h true, List.forall_mem_singleton.mpr (h false)⟩)

/-! ## Names -/

/-- A name is taken as far as it goes. -/
theorem takes_identifier (hw : IsName w) (hcs : leadingWord cs = []) :
    (rule .identifier).Takes false (w ++ cs) (afterBlanks false cs) (Token .identifier w) := by
  refine Takes.token rfl rfl ?_
  have hword : leadingWord (w ++ cs) = w := leadingWord_append hw.chars hcs
  have hfree : (Pattern.unless (rule .keyword)).Takes true (w ++ cs) (w ++ cs) Nothing :=
    (Rule.keyword.refuses_words (by decide) (by rw [hword]; exact hw.free)).unless
  obtain ⟨x, hx, hstart⟩ := hw.start
  match w, hx with
  | y :: w, rfl =>
    have hrest : (many (rule .identChar)).Takes true (w ++ cs) cs Nothing := by
      have htakes := isClass_identChar.takes_many (w ++ cs)
      rwa [dropWhile_append (fun x hx => hw.chars x (List.mem_cons_of_mem _ hx))
        (leadingWord_eq_nil_iff.mp hcs)] at htakes
    exact hfree.before ((takes_char hstart true (w ++ cs)).before hrest)

/-- Where the whole word is not a name, none is taken. -/
theorem refuses_identifier (h : ¬ IsName (leadingWord cs)) :
    (rule .identifier).Refuses false cs := by
  refine Refuses.rule ?_
  by_cases hkeyword : ∃ k ∈ keywords, leadingWord cs = k.toList
  · obtain ⟨k, hk, hword⟩ := hkeyword
    have htext : k.toList ++ cs.dropWhile isNameChar = cs := by
      rw [← hword]
      exact leadingWord_append_dropWhile cs
    have htakes := takes_oneWordOf keywords_chars keywords_free hk (leadingWord_dropWhile cs)
    rw [htext] at htakes
    exact Refuses.seq (Takes.unless (Takes.inside (r := .keyword) htakes)) _
  · have hfree : (Pattern.unless (rule .keyword)).Takes true cs cs Nothing :=
      (Rule.keyword.refuses_words (by decide) fun k hk hword => hkeyword ⟨k, hk, hword⟩).unless
    refine hfree.seq_refuses (Refuses.seq (refuses_char fun x hx => ?_) _)
    -- the leading word begins with a letter, so it would be a name
    refine Bool.eq_false_iff.mpr fun hstart => h ⟨⟨x, ?_, hstart⟩, List.all_eq_true.mp ?_,
      fun k hk hword => hkeyword ⟨k, hk, hword⟩⟩
    · obtain ⟨rest, rfl⟩ := List.head?_eq_some_iff.mp hx
      rw [leadingWord, List.takeWhile_cons_of_pos (isNameChar_of_isNameStart hstart)]
      rfl
    · exact List.all_takeWhile

/-! ## Numbers -/

theorem takes_integer (hne : w ≠ []) (hw : ∀ x ∈ w, isDigit x = true)
    (hcs : ∀ x ∈ cs.head?, isDigit x = false) :
    (rule .integer).Takes false (w ++ cs) (afterBlanks false cs) (Token .integer w) := by
  refine Takes.token rfl rfl ?_
  match w, hne with
  | x :: w, _ =>
    have hrest : (many (char isDigit)).Takes true (w ++ cs) cs Nothing := by
      have htakes := (isClass_char isDigit).takes_many (w ++ cs)
      rwa [dropWhile_append (fun x hx => hw x (List.mem_cons_of_mem _ hx)) hcs] at htakes
    exact (takes_char (hw x List.mem_cons_self) true (w ++ cs)).before hrest

theorem refuses_integer (h : ∀ x ∈ cs.head?, isDigit x = false) :
    (rule .integer).Refuses false cs :=
  Refuses.rule (Refuses.seq (refuses_char h) _)

end

end TraceTree

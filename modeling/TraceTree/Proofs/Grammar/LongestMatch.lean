import TraceTree.Proofs.Grammar.Parts
import TraceTree.Proofs.Grammar.Places

set_option autoImplicit false

/-! # Longest match

What the rules for tokens do with a text is decided by the longest word, or number, that the text
begins with: a rule takes the whole of it where it is one that the rule is for, and nothing
elsewhere (`Rule.takesWhere_words`, `Rule.takesWhere_identifier`, `Rule.takesWhere_integer`). So
where a name begins with a keyword, the name is taken and the keyword is not
(`Rule.longest_match`). -/

namespace TraceTree

open String (utf8Len)

/-- The longest number at the beginning of a text. -/
def leadingDigits (cs : List Char) : List Char := cs.takeWhile isDigit

namespace Rule

variable {r : Rule} {s : String} {ss : List String} {w text : List Char} {c next : Cursor}
  {a b : Attempts} {pairs : List Pair} {condition : Prop}

/-! ## Taking just some characters -/

/-- A token is one pair with nothing inside, and matching goes on right behind its characters. -/
theorem outcome_eq_token (hloud : r.isSilent = false) (hatomic : r.isAtomic = true)
    (h : r.outcome false c a = .matched pairs next b) (hpairs : Pattern.Token r w pairs) :
    c.rest = w ++ next.rest ∧ next.offset = c.offset + utf8Len w ∧
      pairs = [.mk r ⟨c.offset, next.offset⟩ w []] := by
  obtain ⟨span, inner, rfl⟩ := hpairs
  obtain ⟨inner', b', hbody, hpair⟩ := outcome_eq_matched hloud h
  obtain ⟨-, rfl, rfl, rfl⟩ := Pair.mk.inj (List.cons.inj hpair).1
  have hleads : c.LeadsTo next := (spread_of_run h).leadsTo
  have hatoms : ∀ (r : Rule) (c : Cursor) a pairs next a',
      r.outcome true c a = .matched pairs next a' → pairs = [] :=
    fun r c a pairs next a' => eq_nil_of_atomic _
  rw [hatomic] at hbody
  rw [Pattern.eq_nil_of_atomic hatoms hbody]
  exact ⟨hleads.upTo_append.symm, hleads.offset_eq, rfl⟩

/-- The rule takes just the characters `w` at the beginning of a text: it makes one pair that covers
them, with nothing inside, and matching goes on right behind them. -/
def TakesJust (r : Rule) (w text : List Char) : Prop :=
  ∃ left a, text = w ++ left ∧
    r.recognise text = .matched [.mk r ⟨0, utf8Len w⟩ w []] ⟨utf8Len w, left⟩ a

/-- The rule does not match at the beginning of a text. -/
def TakesNothing (r : Rule) (text : List Char) : Prop := ∃ a, r.recognise text = .failed a

/-- The rule takes just the characters `w` where the condition holds, and nothing where it does
not. -/
structure TakesWhere (r : Rule) (condition : Prop) (w text : List Char) : Prop where
  takes : condition → r.TakesJust w text
  refuses : ¬ condition → r.TakesNothing text

theorem takesJust_of_takes {cs : List Char} (hloud : r.isSilent = false)
    (hatomic : r.isAtomic = true) (h : (Pattern.rule r).Takes false text cs (Pattern.Token r w)) :
    r.TakesJust w text := by
  obtain ⟨pairs, ⟨offset, left⟩, a, hrun, -, hpairs⟩ := h (Cursor.ofText text) .empty rfl
  obtain ⟨htext, hoffset, rfl⟩ := outcome_eq_token hloud hatomic hrun hpairs
  obtain rfl : offset = utf8Len w := hoffset.trans (Nat.zero_add _)
  exact ⟨left, a, htext, hrun⟩

theorem takesNothing_of_refuses (h : (Pattern.rule r).Refuses false text) : r.TakesNothing text :=
  h (Cursor.ofText text) .empty rfl

/-! ## Words -/

theorem keywords_start : ∀ k ∈ keywords, ∃ x ∈ k.toList.head?, isNameStart x = true := by
  have hall : ∀ k ∈ keywords, k.toList.head?.any isNameStart = true := by decide
  exact fun k hk => (Option.any_eq_true _ _).mp (hall k hk)

/-- **A rule for words takes the longest word** where it is one of them, and nothing elsewhere. -/
theorem takesWhere_words (h : r.words ≠ []) (text : List Char) :
    r.TakesWhere (∃ k ∈ r.words, leadingWord text = k.toList) (leadingWord text) text := by
  obtain ⟨hloud, hatomic, -⟩ := body_of_words h
  constructor
  · rintro ⟨k, hk, hword⟩
    have htakes := r.takes_words hk (leadingWord_dropWhile text)
    rw [← hword, leadingWord_append_dropWhile] at htakes
    exact takesJust_of_takes hloud hatomic htakes
  · intro hnone
    exact takesNothing_of_refuses (r.refuses_words h fun k hk hword => hnone ⟨k, hk, hword⟩)

/-- Behind a word that was taken no name goes on, wherever in a text that is. -/
theorem leadingWord_of_run {depth : Nat} {atomic : Bool} (hwords : r.words ≠ [])
    (h : Rule.run depth r atomic c a = .matched pairs next b) : leadingWord next.rest = [] := by
  obtain ⟨-, hatomic, s, ss, -, hword⟩ := body_of_words hwords
  cases depth with
  | zero => cases h
  | succ depth =>
    obtain ⟨inner, hbody, -⟩ := run_eq_matched h
    rw [hatomic, Bool.or_true, hword] at hbody
    obtain ⟨ps, mid, b', qs, -, hend, -⟩ := Pattern.run_seq_eq_matched hbody
    rw [Pattern.run] at hend
    split at hend
    · cases hend
    · next b'' hfailed =>
      obtain ⟨-, rfl, -⟩ := Outcome.matched.inj hend
      by_contra hname
      -- a character of a name would have been matched
      obtain ⟨x, rest, hrest, hx⟩ := exists_of_leadingWord_ne_nil hname
      obtain ⟨_, _, _, htaken, -⟩ := Pattern.isClass_identChar.takes x rest hx _ b' hrest
      have hfailed : Rule.run depth .identChar true (mid.onward true) b' = .failed b'' := hfailed
      have houtcome := extends_outcome depth .identChar true _ b'
        (by rw [hfailed]; exact Outcome.failed_ne_exhausted)
      cases htaken.symm.trans (houtcome.trans hfailed)
    · cases hend

/-! ## Names and numbers -/

theorem isName_leadingWord_iff : IsName (leadingWord text) ↔
    (∃ x ∈ text.head?, isNameStart x = true) ∧ ∀ k ∈ keywords, leadingWord text ≠ k.toList := by
  have hhead : (∃ x ∈ (leadingWord text).head?, isNameStart x = true) ↔
      ∃ x ∈ text.head?, isNameStart x = true := by
    cases text with
    | nil => rfl
    | cons x cs =>
      cases hx : isNameChar x with
      | true => simp [leadingWord, hx]
      | false =>
        have hstart := mt isNameChar_of_isNameStart (Bool.eq_false_iff.mp hx)
        simp [leadingWord, hx, hstart]
  rw [← hhead]
  exact ⟨fun h => ⟨h.start, h.free⟩,
    fun h => ⟨h.1, List.all_eq_true.mp List.all_takeWhile, h.2⟩⟩

theorem takesWhere_identifier (text : List Char) :
    identifier.TakesWhere
      ((∃ x ∈ text.head?, isNameStart x = true) ∧ ∀ k ∈ keywords, leadingWord text ≠ k.toList)
      (leadingWord text) text := by
  rw [← isName_leadingWord_iff]
  constructor
  · intro hname
    have htakes := takes_identifier hname (leadingWord_dropWhile text)
    rw [leadingWord_append_dropWhile] at htakes
    exact takesJust_of_takes rfl rfl htakes
  · intro hname
    exact takesNothing_of_refuses (refuses_identifier hname)

theorem takesWhere_integer (text : List Char) :
    integer.TakesWhere (leadingDigits text ≠ []) (leadingDigits text) text := by
  have hleft := head?_dropWhile isDigit text
  constructor
  · intro hne
    have hdigits : ∀ x ∈ leadingDigits text, isDigit x = true :=
      List.all_eq_true.mp List.all_takeWhile
    have htakes := takes_integer hne hdigits hleft
    rw [leadingDigits, List.takeWhile_append_dropWhile] at htakes
    exact takesJust_of_takes rfl rfl htakes
  · intro hnone
    have htext : text.takeWhile isDigit ++ text.dropWhile isDigit = text :=
      List.takeWhile_append_dropWhile
    rw [show text.takeWhile isDigit = [] from not_not.mp hnone, List.nil_append] at htext
    rw [htext] at hleft
    exact takesNothing_of_refuses (refuses_integer hleft)

/-- **Names are cut by longest match, and keywords are reserved.** At the beginning of a text a name
is taken where the text begins with a letter or an underscore and the longest word there is no
keyword; it is that word. The rule for a keyword takes the longest word where it is that keyword,
and likewise the rule for truth values; a number is taken as far as the digits go. So a keyword with
which a longer word begins is not taken, but all of the word is, as a name; and wherever in a text a
word is taken by a rule for it, no name goes on behind it. -/
theorem longest_match (text : List Char) :
    identifier.TakesWhere
      ((∃ x ∈ text.head?, isNameStart x = true) ∧ ∀ k ∈ keywords, leadingWord text ≠ k.toList)
      (leadingWord text) text ∧
    (∀ r : Rule, r.words ≠ [] → r.TakesWhere (∃ k ∈ r.words, leadingWord text = k.toList)
      (leadingWord text) text) ∧
    integer.TakesWhere (leadingDigits text ≠ []) (leadingDigits text) text ∧
    (∀ k ∈ keywords, ∀ more, more ≠ [] → leadingWord text = k.toList ++ more →
      identifier.TakesJust (leadingWord text) text ∧
      ∀ r : Rule, r.words ≠ [] → r.TakesNothing text) ∧
    ∀ (r : Rule) depth atomic c a pairs next b, r.words ≠ [] →
      Rule.run depth r atomic c a = .matched pairs next b → leadingWord next.rest = [] := by
  refine ⟨takesWhere_identifier text, fun r hr => takesWhere_words hr text,
    takesWhere_integer text, ?_, fun r depth atomic c a pairs next b => leadingWord_of_run⟩
  intro k hk more hmore hword
  have hlonger : ∀ k' ∈ keywords, leadingWord text ≠ k'.toList := by
    intro k' hk' hword'
    obtain rfl := keywords_free k hk k' hk' ⟨more, hword.symm.trans hword'⟩
    exact hmore (List.append_right_eq_self.mp (hword.symm.trans hword'))
  have hname : IsName (leadingWord text) := by
    obtain ⟨x, hx, hstart⟩ := keywords_start k hk
    refine ⟨⟨x, ?_, hstart⟩, List.all_eq_true.mp List.all_takeWhile, hlonger⟩
    rw [hword, List.head?_append, Option.mem_def.mp hx]
    rfl
  refine ⟨(takesWhere_identifier text).takes (isName_leadingWord_iff.mp hname), fun r hr => ?_⟩
  refine (takesWhere_words hr text).refuses ?_
  rintro ⟨k', hk', hword'⟩
  exact hlonger k' (r.words_subset k' hk') hword'

/-- A name that begins with a keyword, in front of a bracket. -/
theorem longest_match_iffy :
    leadingWord "iffy(else1)".toList = "if".toList ++ "fy".toList ∧
      identifier.TakesJust "iffy".toList "iffy(else1)".toList ∧
      kwIf.TakesNothing "iffy(else1)".toList := by
  obtain ⟨-, -, -, hlonger, -⟩ := longest_match "iffy(else1)".toList
  have hword : leadingWord "iffy(else1)".toList = "if".toList ++ "fy".toList := by decide
  obtain ⟨hname, hwords⟩ := hlonger "if" (by decide) "fy".toList (by decide) hword
  exact ⟨hword, hname, hwords .kwIf (by decide)⟩

end Rule

end TraceTree

import TraceTree.Proofs.Session.Highlighting
import TraceTree.Proofs.Syntax.Canonical

set_option autoImplicit false

/-! # What is marked in a line

The runs of three classes are marked: keywords, truth values and numbers. A place in a line at which
a token begins is followed by the marks of the text from there on (`Highlight.marks`), and passing
one token passes at most one mark: a character that no name and no number has in it is never marked
(`marks_symbol`), and a word is marked if it is what the grammar makes a pair of (`marks_token`). -/

namespace TraceTree.Highlight

open Text (byteCount)

variable {type : TokenClass} {c : Cursor} {w left : List Char}

/-- The spans of the runs of a class, in a text that begins at a byte offset. -/
def spansOf (type : TokenClass) (offset : Nat) : List Run → List Span
  | [] => []
  | run :: more =>
    if run.type = type then
      ⟨offset, offset + byteCount run.text⟩ :: spansOf type (offset + byteCount run.text) more
    else spansOf type (offset + byteCount run.text) more

/-- The rules that match the tokens of a class. -/
def TokenClass.rules : TokenClass → List Rule
  | keyword => [.kwLet, .kwReturn, .kwFn, .kwIf, .kwElse]
  | constant => [.boolean]
  | number => [.integer]
  | plain | command | operator => []

/-- Joining plain runs moves no others. -/
theorem spansOf_join (htype : type ≠ .plain) (offset : Nat) (run : Run) (runs : List Run) :
    spansOf type offset (join run runs) = spansOf type offset (run :: runs) := by
  cases runs with
  | nil => rfl
  | cons next more =>
    by_cases hplain : run.type = .plain ∧ next.type = .plain
    · simp [join, spansOf, hplain, Ne.symm htype, Nat.add_assoc]
    · simp [join, hplain]

theorem spansOf_runsOf (htype : type ≠ .plain) (offset : Nat) (text : List Char) :
    spansOf type offset (runsOf text) = spansOf type offset ((tokens text).map .ofToken) := by
  rw [runsOf_eq]
  induction tokens text generalizing offset with
  | nil => rfl
  | cons token ts ih =>
    rw [List.foldr_cons, spansOf_join htype, List.map_cons, spansOf, spansOf, ih]

/-! ## Marks from a place on -/

/-- The spans of the tokens of a class from a place on. -/
def marks (type : TokenClass) (c : Cursor) : List Span :=
  spansOf type c.offset ((tokens c.rest).map .ofToken)

theorem marks_nil (hc : c.rest = []) : marks type c = [] := by
  simp [marks, hc, tokens, spansOf]

/-- A token ends where it cannot be continued. -/
theorem tokens_append {x : Char} (hw : ∀ y ∈ w, continues x y = true)
    (hleft : ∀ y ∈ left.head?, continues x y = false) :
    tokens (x :: w ++ left) = (x :: w) :: tokens left := by
  have htake : (w ++ left).takeWhile (continues x) = w := by
    rw [List.takeWhile_append_of_pos hw]
    cases left with
    | nil => simp
    | cons y left => simp [hleft y rfl]
  rw [List.cons_append, tokens, htake, dropWhile_append hw hleft]

/-- Passing a token passes its mark. -/
theorem marks_token (hc : c.rest = w ++ left) (htokens : tokens (w ++ left) = w :: tokens left) :
    marks type c = (if classOf w = type then [⟨c.offset, c.offset + byteCount w⟩] else []) ++
      marks type ⟨c.offset + byteCount w, left⟩ := by
  unfold marks
  rw [hc, htokens, List.map_cons, spansOf]
  by_cases hclass : classOf w = type
  · simp [Run.ofToken, hclass]
  · simp [Run.ofToken, hclass]

/-! ## Tokens of the grammar -/

/-- The class of a token that is no word of the language depends on its first character. -/
theorem classOf_cons {x : Char} {more : List Char}
    (hfree : ∀ k ∈ TraceTree.keywords, x :: more ≠ k.toList) : classOf (x :: more) =
      if isDigit x then .number
      else if more.isEmpty && operators.contains x then .operator else .plain := by
  have hkeyword : keywords.contains (x :: more) = false := by
    have hall : ∀ k ∈ keywords, ∃ k' ∈ TraceTree.keywords, k = k'.toList := by decide
    refine Bool.eq_false_iff.mpr fun hmem => ?_
    obtain ⟨k, hk, heq⟩ := hall _ (List.contains_iff_mem.mp hmem)
    exact hfree k hk heq
  have hconstant : (x :: more == "true".toList || x :: more == "false".toList) = false := by
    simp only [Bool.or_eq_false_iff, beq_eq_false_iff_ne]
    exact ⟨hfree "true" (by decide), hfree "false" (by decide)⟩
  rw [classOf, hkeyword, hconstant]
  rfl

/-- A character that no name and no number has in it is a token by itself, which is not marked. -/
theorem marks_symbol (htype : type.rules ≠ []) {x : Char} (hx : isNameChar x = false)
    (hc : c.rest = x :: left) : marks type c = marks type ⟨c.offset + x.utf8Size, left⟩ := by
  obtain ⟨hname, hdigit⟩ : isNameStart x = false ∧ isDigit x = false := by
    simpa [isNameChar] using hx
  have htokens : tokens ([x] ++ left) = [x] :: tokens left :=
    tokens_append (by simp) (by simp [continues, hname, hdigit])
  have hclass : classOf [x] = .operator ∨ classOf [x] = .plain := by
    have hlong : ∀ k ∈ TraceTree.keywords, k.toList.length ≠ 1 := by decide
    rw [classOf_cons fun k hk heq => hlong k hk (by rw [← heq]; rfl), hdigit]
    by_cases hoperator : x ∈ operators
    · exact .inl (by simp [hoperator])
    · exact .inr (by simp [hoperator])
  have hnone : classOf [x] ≠ type := by
    rintro rfl
    rcases hclass with hclass | hclass
    · exact htype (by rw [hclass]; rfl)
    · exact htype (by rw [hclass]; rfl)
  rw [marks_token hc htokens, if_neg hnone, List.nil_append]
  rfl

/-- The first characters of a text, as the highlighter cuts them off and as a rule matches them. -/
structure IsToken (r : Rule) (w left : List Char) : Prop where
  tokens_eq : tokens (w ++ left) = w :: tokens left
  class_iff : ∀ type : TokenClass, type.rules ≠ [] → (classOf w = type ↔ r ∈ type.rules)
  chars : ∀ x ∈ w, isNameChar x = true

/-- A word goes as far as the characters of names do. -/
theorem tokens_word (hstart : ∃ x ∈ w.head?, isNameStart x = true)
    (hw : ∀ x ∈ w, isNameChar x = true) (hleft : leadingWord left = []) :
    tokens (w ++ left) = w :: tokens left := by
  obtain ⟨x, hx, hname⟩ := hstart
  obtain ⟨more, rfl⟩ := List.head?_eq_some_iff.mp hx
  have hcontinues : continues x = isNameChar := by simp [continues, hname]
  refine tokens_append ?_ ?_
  · rw [hcontinues]
    exact fun y hy => hw y (List.mem_cons_of_mem x hy)
  · rw [hcontinues]
    exact leadingWord_eq_nil_iff.mp hleft

theorem isToken_identifier (hw : IsName w) (hleft : leadingWord left = []) :
    IsToken .identifier w left where
  tokens_eq := tokens_word hw.start hw.chars hleft
  class_iff := by
    have hclass : classOf w = .plain := by
      obtain ⟨x, hx, hname⟩ := hw.start
      obtain ⟨more, rfl⟩ := List.head?_eq_some_iff.mp hx
      have hoperators : ∀ y ∈ operators, isNameStart y = false := by simp [operators, isNameStart]
      have hletter : x ∉ operators := fun hmem => by simp [hoperators x hmem] at hname
      rw [classOf_cons hw.free, isDigit_eq_false_of_isNameStart hname]
      simp [hletter]
    intro type htype
    rw [hclass]
    cases type <;> simp_all [TokenClass.rules]
  chars := hw.chars

/-- The words that a rule is for are marked, unless it is the rule for all that are not names. -/
theorem isToken_word {r : Rule} {s : String} (hkeyword : r ≠ .keyword) (hs : s ∈ r.words)
    (hleft : leadingWord left = []) : IsToken r s.toList left := by
  have hstarts : ∀ k ∈ TraceTree.keywords, k.toList.head?.any isNameStart = true := by decide
  have hclasses : ∀ type : TokenClass, type.rules ≠ [] → ∀ r ∈ Rule.all, r ≠ .keyword →
      ∀ k ∈ r.words, (classOf k.toList = type ↔ r ∈ type.rules) := by
    intro type
    cases type <;> decide
  have hmem := r.words_subset s hs
  have hchars := keywords_chars s hmem
  exact ⟨tokens_word ((Option.any_eq_true _ _).mp (hstarts s hmem)) hchars hleft,
    fun type htype => hclasses type htype r r.mem_all hkeyword s hs, hchars⟩

/-- A number goes as far as the digits do, also where a letter follows. -/
theorem isToken_integer (hne : w ≠ []) (hw : ∀ x ∈ w, isDigit x = true)
    (hleft : ∀ x ∈ left.head?, isDigit x = false) : IsToken .integer w left := by
  obtain ⟨x, more, rfl⟩ := List.exists_cons_of_ne_nil hne
  have hdigit := hw x List.mem_cons_self
  have hname : isNameStart x = false :=
    Bool.eq_false_iff.mpr fun hname => by simp [isDigit_eq_false_of_isNameStart hname] at hdigit
  refine ⟨?_, ?_, ?_⟩
  · refine tokens_append ?_ ?_
    · simpa [continues, hname, hdigit] using fun y hy => hw y (List.mem_cons_of_mem x hy)
    · simpa [continues, hname, hdigit] using hleft
  · have hletters : ∀ k ∈ TraceTree.keywords, k.toList.head?.any isDigit = false := by decide
    have hclass : classOf (x :: more) = .number := by
      rw [classOf_cons, if_pos hdigit]
      intro k hk heq
      have hfirst := hletters k hk
      simp [← heq, hdigit] at hfirst
    intro type htype
    rw [hclass]
    cases type <;> simp_all [TokenClass.rules]
  · intro y hy
    rw [isNameChar, hw y hy, Bool.or_true]

end TraceTree.Highlight

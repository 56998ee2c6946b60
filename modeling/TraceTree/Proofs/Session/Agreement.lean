import TraceTree.Proofs.Grammar.LongestMatch
import TraceTree.Proofs.Session.Marks
import TraceTree.Proofs.Syntax.Settling

set_option autoImplicit false

/-! # The highlighter and the grammar agree on tokens

Keywords, truth values and numbers are marked in a line without regard to the grammar. In a line
that is a program and has no comments, they are marked exactly where the grammar matches them: while
a text is matched, what is passed has the marks of the pairs that are made (`Passes`). Between tokens
only blanks and symbols are passed, none of which is ever marked, and a rule that matches a token
goes just as far as the highlighter does. -/

namespace TraceTree

open Highlight (TokenClass IsToken marks)
open Text (byteCount)

/-- The spans of the pairs of some rules, also inside other pairs, in the order in which they
begin. -/
def Pair.spansOf (rules : List Rule) (pairs : List Pair) : List Span :=
  ((Pair.within pairs).filter fun p => rules.contains p.rule).map (·.span)

section

variable {rules : List Rule} {r : Rule} {span : Span} {text : List Char} {inner : List Pair}

theorem Pair.spansOf_nil : spansOf rules [] = [] := rfl

theorem Pair.spansOf_append (ps qs : List Pair) :
    spansOf rules (ps ++ qs) = spansOf rules ps ++ spansOf rules qs := by
  simp [spansOf, within_append]

theorem Pair.spansOf_single : spansOf rules [.mk r span text inner] =
    (if r ∈ rules then [span] else []) ++ spansOf rules inner := by
  have hnil : within [] = [] := rfl
  by_cases hr : r ∈ rules
  · simp [spansOf, within_cons, hnil, hr, Pair.rule, Pair.span, Pair.children]
  · simp [spansOf, within_cons, hnil, hr, Pair.rule, Pair.children]

end

/-! ## What is passed -/

/-- From one place to another no colon is passed, and the marks of what is passed are those of the
pairs made. -/
structure Passes (type : TokenClass) (c : Cursor) (pairs : List Pair) (next : Cursor) : Prop where
  noColon : ∃ passed, c.rest = passed ++ next.rest ∧ ':' ∉ passed
  marks_eq : marks type c = Pair.spansOf type.rules pairs ++ marks type next

/-- A text in which no comment begins. -/
def Uncommented (cs : List Char) : Prop := ¬ ['/', '/'] <:+: cs

variable {type : TokenClass} {c d e next : Cursor} {ps qs pairs : List Pair} {a b : Attempts}

namespace Passes

theorem refl (c : Cursor) : Passes type c [] c := ⟨⟨[], rfl, List.not_mem_nil⟩, rfl⟩

theorem trans (h : Passes type c ps d) (h' : Passes type d qs e) : Passes type c (ps ++ qs) e := by
  obtain ⟨before, hbefore, hnone⟩ := h.noColon
  obtain ⟨behind, hbehind, hnone'⟩ := h'.noColon
  refine ⟨⟨before ++ behind, by rw [hbefore, hbehind, List.append_assoc], ?_⟩, ?_⟩
  · simp [hnone, hnone']
  · rw [h.marks_eq, h'.marks_eq, Pair.spansOf_append, List.append_assoc]

theorem uncommented (h : Passes type c ps d) (hc : Uncommented c.rest) : Uncommented d.rest := by
  obtain ⟨passed, hrest, -⟩ := h.noColon
  rw [Uncommented, hrest] at hc
  exact fun hslashes => hc (hslashes.trans (List.suffix_append _ _).isInfix)

/-- A symbol is never marked. -/
theorem symbol (htype : type.rules ≠ []) {x : Char} {cs : List Char} (hx : isNameChar x = false)
    (hcolon : x ≠ ':') (hc : c.rest = x :: cs) :
    Passes type c [] ⟨c.offset + x.utf8Size, cs⟩ :=
  ⟨⟨[x], hc, by simpa using hcolon.symm⟩, Highlight.marks_symbol htype hx hc⟩

/-- Where no comment begins, nothing but blanks is passed between tokens. -/
theorem skip (htype : type.rules ≠ []) (hc : Uncommented c.rest) : Passes type c [] c.skip := by
  have hall : ∀ offset cs, Uncommented cs →
      Passes type ⟨offset, cs⟩ [] (Cursor.skipFrom false offset cs) := by
    intro offset cs hcs
    induction cs generalizing offset with
    | nil => exact refl _
    | cons x cs ih =>
      simp only [Cursor.skipFrom, Bool.false_eq_true, if_false]
      by_cases hspace : isSpace x = true
      · have hblanks : ∀ y ∈ [' ', '\t', '\r', '\n'], isNameChar y = false ∧ y ≠ ':' := by
          simp [isNameChar, isNameStart, isDigit]
        obtain ⟨hx, hcolon⟩ := hblanks x (by simpa [isSpace, or_assoc] using hspace)
        have hfirst : Passes type ⟨offset, x :: cs⟩ [] ⟨offset + x.utf8Size, cs⟩ :=
          symbol htype hx hcolon rfl
        rw [if_pos hspace]
        exact hfirst.trans (ih _ (hfirst.uncommented hcs))
      · have hbegins : ¬ (x == '/' && cs.head? == some '/') = true := by
          intro hslashes
          obtain ⟨hx, hhead⟩ : x = '/' ∧ cs.head? = some '/' := by simpa using hslashes
          obtain ⟨more, rfl⟩ := List.head?_eq_some_iff.mp hhead
          exact hcs ⟨[], more, by simp [hx]⟩
        rw [if_neg hspace, if_neg hbegins]
        exact refl _
  exact hall c.offset c.rest hc

theorem word (htype : type.rules ≠ []) {chars : List Char}
    (hchars : ∀ x ∈ chars, isNameChar x = false ∧ x ≠ ':') (h : c.word? chars = some next) :
    Passes type c [] next := by
  induction chars generalizing c with
  | nil =>
    obtain rfl := Option.some.inj h
    exact refl c
  | cons x chars ih =>
    obtain ⟨mid, hmid, hnext⟩ := Option.bind_eq_some_iff.mp h
    obtain ⟨⟨hx, hcolon⟩, hmore⟩ := List.forall_mem_cons.mp hchars
    have hfirst : Passes type c [] mid := by
      unfold Cursor.char? at hmid
      split at hmid
      · cases hmid
      · next y cs hrest =>
        split at hmid
        · next hy =>
          obtain rfl := beq_iff_eq.mp hy
          obtain rfl := Option.some.inj hmid
          exact symbol htype hx hcolon hrest
        · cases hmid
    exact hfirst.trans (ih hmore hnext)

end Passes

/-! ## Tokens -/

/-- A rule that matches whole tokens: none for layout, for a single character of a name, or for the
words that are not names. -/
def Rule.isTokenwise (r : Rule) : Bool := !([whitespace, comment, identChar, keyword].contains r)

section

variable {r : Rule} {s : String} {w left : List Char}

/-- A rule matched the first characters of a text, which the highlighter cuts off as well. -/
def Rule.Cuts (r : Rule) (c : Cursor) (pairs : List Pair) : Prop :=
  ∃ w left, c.rest = w ++ left ∧ IsToken r w left ∧ Pattern.Token r w pairs

theorem cuts_identifier (h : Rule.identifier.outcome false c a = .matched pairs next b) :
    Rule.identifier.Cuts c pairs := by
  have htext := (leadingWord_append_dropWhile c.rest).symm
  have hleft := leadingWord_dropWhile c.rest
  by_cases hname : IsName (leadingWord c.rest)
  · exact ⟨_, _, htext, Highlight.isToken_identifier hname hleft,
      (takes_identifier hname hleft).made_of_outcome htext h⟩
  · exact absurd h ((refuses_identifier hname).not_outcome rfl)

theorem Rule.cuts_words (hwords : r.words ≠ []) (hkeyword : r ≠ .keyword)
    (h : r.outcome false c a = .matched pairs next b) : r.Cuts c pairs := by
  have htext := (leadingWord_append_dropWhile c.rest).symm
  have hleft := leadingWord_dropWhile c.rest
  by_cases hword : ∃ s ∈ r.words, leadingWord c.rest = s.toList
  · obtain ⟨s, hs, hword⟩ := hword
    rw [hword] at htext
    exact ⟨_, _, htext, Highlight.isToken_word hkeyword hs hleft,
      (r.takes_words hs hleft).made_of_outcome htext h⟩
  · have hrefuses : (Pattern.rule r).Refuses false c.rest :=
      r.refuses_words hwords fun s hs heq => hword ⟨s, hs, heq⟩
    exact absurd h (hrefuses.not_outcome rfl)

theorem cuts_integer (h : Rule.integer.outcome false c a = .matched pairs next b) :
    Rule.integer.Cuts c pairs := by
  have htext : c.rest = c.rest.takeWhile isDigit ++ c.rest.dropWhile isDigit :=
    List.takeWhile_append_dropWhile.symm
  have hleft := head?_dropWhile isDigit c.rest
  have hdigits : ∀ x ∈ c.rest.takeWhile isDigit, isDigit x = true :=
    List.all_eq_true.mp List.all_takeWhile
  by_cases hne : c.rest.takeWhile isDigit = []
  · rw [hne, List.nil_append] at htext
    exact absurd h ((refuses_integer (htext ▸ hleft)).not_outcome rfl)
  · exact ⟨_, _, htext, Highlight.isToken_integer hne hdigits hleft,
      (takes_integer hne hdigits hleft).made_of_outcome htext h⟩

/-- The rules for tokens cut a text where the highlighter does. -/
theorem Rule.cuts_of_outcome (hatomic : r.isAtomic = true) (htokenwise : r.isTokenwise = true)
    (h : r.outcome false c a = .matched pairs next b) : r.Cuts c pairs := by
  cases r with
  | integer => exact cuts_integer h
  | identifier => exact cuts_identifier h
  | boolean | kwLet | kwReturn | kwFn | kwIf | kwElse => exact cuts_words (by decide) (by decide) h
  | whitespace | comment | keyword => exact absurd htokenwise (by decide)
  | _ => cases hatomic

/-- A match of a token passes its mark. -/
theorem Rule.Cuts.passes (htype : type.rules ≠ []) (hcuts : r.Cuts c pairs)
    (hatomic : r.isAtomic = true) (hloud : r.isSilent = false)
    (h : r.outcome false c a = .matched pairs next b) : Passes type c pairs next := by
  obtain ⟨w, left, hrest, htoken, hmade⟩ := hcuts
  obtain ⟨htext, hoffset, rfl⟩ := outcome_eq_token hloud hatomic h hmade
  have hnext : next = ⟨c.offset + byteCount w, left⟩ := by
    rw [Text.byteCount_eq_utf8Len, ← hoffset, List.append_cancel_left (hrest.symm.trans htext)]
  refine ⟨⟨w, by rw [hrest, hnext], fun hcolon => ?_⟩, ?_⟩
  · exact absurd (htoken.chars ':' hcolon) (by decide)
  · have hsame : (if Highlight.classOf w = type then [Span.mk c.offset (c.offset + byteCount w)]
        else []) = if r ∈ type.rules then [Span.mk c.offset (c.offset + byteCount w)] else [] :=
      if_congr (htoken.class_iff type htype) rfl rfl
    rw [Highlight.marks_token hrest htoken.tokens_eq, Pair.spansOf_single, hnext, hsame,
      Pair.spansOf_nil, List.append_nil]

end

/-! ## Matches -/

/-- A pattern whose own characters are symbols, so that all other tokens are matched by rules. -/
def Pattern.isTokenwise : Pattern → Bool
  | .char _ => false
  | .word chars => chars.all fun x => !isNameChar x && x != ':'
  | .rule r => r.isTokenwise
  | .seq first second | .choice first second => first.isTokenwise && second.isTokenwise
  | .maybe p | .many p => p.isTokenwise
  | .start | .finish | .unless _ => true

theorem Rule.isTokenwise_body {r : Rule} (htokenwise : r.isTokenwise = true)
    (hatomic : r.isAtomic = false) : r.body.isTokenwise = true := by
  have hall : ∀ r ∈ all, r.isTokenwise = true → r.isAtomic = false →
      r.body.isTokenwise = true := by decide
  exact hall r r.mem_all htokenwise hatomic

/-- A meaning of the rules under which what is passed has the marks of the pairs made. -/
def Call.Passes (type : TokenClass) (call : Call) : Prop :=
  ∀ r c a pairs next b, Rule.isTokenwise r = true → Uncommented c.rest →
    call r false c a = .matched pairs next b → TraceTree.Passes type c pairs next

/-- **A pattern passes the marks of its pairs,** if the rules do. -/
theorem Call.Passes.run {call : Call} (hcall : call.Passes type) (htype : type.rules ≠ [])
    {p : Pattern} (hp : p.isTokenwise = true) (hc : Uncommented c.rest)
    (h : p.run call false c a = .matched pairs next b) : TraceTree.Passes type c pairs next := by
  replace h := Pattern.derives_of_run h
  induction h with
  | start | finish | absent | never | missed => exact .refl _
  | char => cases hp
  | word passed =>
    refine .word htype (fun x hx => ?_) passed
    simpa using List.all_eq_true.mp hp x hx
  | rule matched => exact hcall _ _ _ _ _ _ hp hc matched
  | @seq p q c mid next _ _ _ _ ihp ihq =>
    obtain ⟨hp, hq⟩ := (Bool.and_eq_true _ _).mp hp
    have hmid := ihp hp hc
    have hskip : TraceTree.Passes type mid [] mid.skip := .skip htype (hmid.uncommented hc)
    exact hmid.trans (hskip.trans (ihq hq (hskip.uncommented (hmid.uncommented hc))))
  | left _ ih => exact ih ((Bool.and_eq_true _ _).mp hp).1 hc
  | right _ ih => exact ih ((Bool.and_eq_true _ _).mp hp).2 hc
  | once _ ih | round _ ih => exact ih hp hc
  | @again p c mid next _ _ _ _ ihrounds ih =>
    have hmid := ihrounds hp hc
    have hskip : TraceTree.Passes type mid [] mid.skip := .skip htype (hmid.uncommented hc)
    exact hmid.trans (hskip.trans (ih hp (hskip.uncommented (hmid.uncommented hc))))

/-- **Rules pass the marks of their pairs,** at every depth. -/
theorem Rule.passes_run (htype : type.rules ≠ []) (depth : Nat) :
    Call.Passes type (Rule.run depth) := by
  induction depth with
  | zero => nofun
  | succ depth ih =>
    intro r c a pairs next b htokenwise hc h
    by_cases hatomic : r.isAtomic = true
    · have hall : ∀ r ∈ all, r.isAtomic = true → r.isTokenwise = true → r.isSilent = false := by
        decide
      have hloud := hall r r.mem_all hatomic htokenwise
      have houtcome : r.outcome false c a = .matched pairs next b :=
        (extends_outcome (depth + 1) r false c a (by rw [h]; nofun)).trans h
      exact (cuts_of_outcome hatomic htokenwise houtcome).passes htype hatomic hloud houtcome
    · have hatomic := Bool.eq_false_iff.mpr hatomic
      obtain ⟨inner, hbody, rfl⟩ := run_eq_matched h
      rw [Bool.false_or, hatomic] at hbody
      have hinner := ih.run htype (isTokenwise_body htokenwise hatomic) hc hbody
      have hunmarked : r ∉ type.rules := by
        have hall : ∀ r ∈ type.rules, r.isAtomic = true := by cases type <;> decide
        intro hr
        simp [hall r hr] at hatomic
      rw [Bool.false_or]
      by_cases hsilent : r.isSilent = true
      · rwa [if_pos hsilent]
      · rw [if_neg hsilent]
        refine ⟨hinner.noColon, ?_⟩
        rw [hinner.marks_eq, Pair.spansOf_single, if_neg hunmarked, List.nil_append]

/-! ## Lines -/

/-- In a line that is matched as a program, the marks are those of the pairs. -/
theorem spansOf_classify {line : List Char} (hc : Uncommented line)
    (h : Rule.program.recognise line = .matched pairs next a) (htype : type.rules ≠ []) :
    Highlight.spansOf type 0 (Highlight.classify line) = Pair.spansOf type.rules pairs := by
  have hpasses : Passes type (Cursor.ofText line) pairs next :=
    Rule.passes_run htype _ .program _ _ pairs next a (by decide) hc h
  have hend : next.rest = [] := by
    have hlevel : Level.program.rule.recognise line = .matched pairs next a := h
    obtain ⟨items, last, ⟨mid, -, hlast⟩, -⟩ := Level.of_recognise hlevel
    obtain ⟨inner, hbody, -⟩ := hlast.eq_mk rfl rfl
    obtain ⟨hrest, -, rfl⟩ := Pattern.matches_finish.mp hbody
    exact hrest
  have hruns : Highlight.classify line = Highlight.runsOf line := by
    obtain ⟨passed, hline, hcolon⟩ := hpasses.noColon
    obtain rfl : line = passed := by
      rw [hend, List.append_nil] at hline
      exact hline
    unfold Highlight.classify
    split
    · exact absurd List.mem_cons_self hcolon
    · rfl
  have hplain : type ≠ .plain := by
    rintro rfl
    exact htype rfl
  have hmarks := hpasses.marks_eq
  rw [Highlight.marks_nil hend, List.append_nil] at hmarks
  rw [hruns, Highlight.spansOf_runsOf hplain]
  exact hmarks

/-- **The highlighter and the grammar agree on tokens.** In a line that is a program and in which no
comment begins, the keywords, truth values and numbers that are marked are those that are matched. -/
theorem spansOf_of_parseAt {first : NodeId} {line : String} {parsed : Parsed}
    (hparse : parseAt first line .program = .ok parsed)
    (hslashes : ¬ ['/', '/'] <:+: line.toList) : ∃ runs pairs next attempts,
      Highlight.cut? line.toList = some runs ∧
      Rule.program.recognise line.toList = .matched pairs next attempts ∧
      Highlight.spansOf .keyword 0 runs =
        Pair.spansOf [.kwLet, .kwReturn, .kwFn, .kwIf, .kwElse] pairs ∧
      Highlight.spansOf .constant 0 runs = Pair.spansOf [.boolean] pairs ∧
      Highlight.spansOf .number 0 runs = Pair.spansOf [.integer] pairs := by
  obtain ⟨p, next, a, hmatched, -⟩ := matched_of_parseAt hparse
  refine ⟨_, [p], next, a, Highlight.cut?_eq_classify _, hmatched, ?_, ?_, ?_⟩
  · exact spansOf_classify hslashes hmatched (by decide)
  · exact spansOf_classify hslashes hmatched (by decide)
  · exact spansOf_classify hslashes hmatched (by decide)

/-- A line in which names begin with keywords, and keywords and names stand right behind numbers. -/
def tightWords : String := "let lets=1if(!true)\x7b2else3\x7d"

/-- What looks like a keyword in a name is neither marked nor matched as one. -/
theorem spansOf_tightWords : ∃ parsed, parseAt 0 tightWords .program = .ok parsed ∧
    ¬ ['/', '/'] <:+: tightWords.toList ∧ ∃ runs pairs next attempts,
      Highlight.cut? tightWords.toList = some runs ∧
      Rule.program.recognise tightWords.toList = .matched pairs next attempts ∧
      Pair.spansOf [.kwLet, .kwReturn, .kwFn, .kwIf, .kwElse] pairs = [⟨0, 3⟩, ⟨10, 12⟩] ∧
      Pair.spansOf [.boolean] pairs = [⟨14, 18⟩] ∧
      Pair.spansOf [.integer] pairs = [⟨9, 10⟩, ⟨20, 21⟩] := by
  have htext : (parseAt 0 tightWords .program).toOption.map (·.root.text) =
      some "let lets = 1;\nif (!true) \x7b 2; else3; \x7d;" := by cbv
  have hslashes : ¬ ['/', '/'] <:+: tightWords.toList := by decide
  have hspans : (Highlight.cut? tightWords.toList).map (fun runs =>
      [Highlight.spansOf .keyword 0 runs, Highlight.spansOf .constant 0 runs,
        Highlight.spansOf .number 0 runs]) =
      some [[⟨0, 3⟩, ⟨10, 12⟩], [⟨14, 18⟩], [⟨9, 10⟩, ⟨20, 21⟩]] := by decide
  cases hparse : parseAt 0 tightWords .program with
  | error e =>
    rw [hparse] at htext
    cases htext
  | ok parsed =>
    obtain ⟨runs, pairs, next, a, hcut, hmatched, hkeywords, hconstants, hnumbers⟩ :=
      spansOf_of_parseAt hparse hslashes
    rw [hcut, Option.map_some, hkeywords, hconstants, hnumbers] at hspans
    obtain ⟨hkeywords, hconstants, hnumbers⟩ : _ ∧ _ ∧ _ := by
      simpa using Option.some.inj hspans
    exact ⟨parsed, rfl, hslashes, runs, pairs, next, a, hcut, hmatched, hkeywords, hconstants,
      hnumbers⟩

end TraceTree

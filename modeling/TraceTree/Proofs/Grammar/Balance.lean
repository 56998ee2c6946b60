import TraceTree.Proofs.Grammar.Mirroring
import TraceTree.Proofs.Session.Brackets

set_option autoImplicit false

/-! # Brackets and the grammar

Brackets stand in two kinds of places in a text: in its comments, and outside of them, where they
are kept when the layout is stripped. Those outside are seen by the grammar. A pattern is uniform if
its parts fix the balance of what it matches (`Pattern.isUniform`); the bodies of all rules are, apart
from the one for comments, and what they match is balanced. So a match passes characters whose
balance is that of the pattern (`Call.Balanced.run`), as long as nothing but whole comments is passed
between them. -/

namespace TraceTree

open Brackets (balance weight)

/-! ## Brackets inside and outside of comments -/

/-- The characters of a text that stand in comments. `inComment` says whether one is open. -/
def commentsFrom : Bool → List Char → List Char
  | _, [] => []
  | true, x :: cs => if x == '\n' then commentsFrom false cs else x :: commentsFrom true cs
  | false, x :: cs =>
    if x == '/' && cs.head? == some '/' then x :: commentsFrom true cs else commentsFrom false cs

/-- The comments of a text. -/
def comments (cs : List Char) : List Char := commentsFrom false cs

example : comments "f(1) //(\n / 2 //\x7d".toList = "//(//\x7d".toList := by decide

/-- Whether the characters up to a place end within a comment. -/
def Layout.inComment : Layout → Bool
  | comment => true
  | _ => false

theorem weight_of_isSpace {x : Char} (h : isSpace x = true) : weight x = 0 := by
  have hall : ∀ x ∈ [' ', '\t', '\r', '\n'], weight x = 0 := by simp [weight]
  exact hall x (by simpa [isSpace, or_assoc] using h)

/-- What is kept of a text and its comments have the brackets of the text between them. -/
theorem balance_stripFrom_add_commentsFrom (layout : Layout) (cs : List Char) :
    balance (stripFrom layout cs) + balance (commentsFrom layout.inComment cs) = balance cs := by
  induction cs generalizing layout with
  | nil => cases layout <;> rfl
  | cons x cs ih =>
    have hblanks := ih .blanks
    have hcomment := ih .comment
    have htoken := ih .token
    simp only [Layout.inComment] at hblanks hcomment htoken
    have hspace : weight ' ' = 0 := rfl
    have hnewline : weight '\n' = 0 := rfl
    cases layout with
    | comment =>
      by_cases hline : x = '\n'
      · simp [stripFrom, commentsFrom, Layout.inComment, hline, hnewline]
        omega
      · simp [stripFrom, commentsFrom, Layout.inComment, hline]
        omega
    | token | blanks =>
      by_cases hblank : isSpace x = true
      · have hweight := weight_of_isSpace hblank
        have hslash : x ≠ '/' := by
          rintro rfl
          cases hblank
        simp [stripFrom, commentsFrom, Layout.inComment, hblank, hslash]
        omega
      · by_cases hbegins : x == '/' && cs.head? == some '/'
        · simp only [stripFrom, commentsFrom, Layout.inComment, hblank, hbegins, if_true,
            Bool.false_eq_true, if_false, Brackets.balance_cons]
          omega
        · simp only [stripFrom, commentsFrom, Layout.inComment, hblank, hbegins,
            Bool.false_eq_true, if_false, Brackets.balance_cons]
          omega

/-- **The balance of a text** is that of the stripped text and that of its comments. -/
theorem balance_stripped_add_comments (cs : List Char) :
    balance (stripped cs) + balance (comments cs) = balance cs :=
  balance_stripFrom_add_commentsFrom .token cs

/-- Passing blanks leaves the balance of what stands outside of comments. -/
theorem balance_stripped_afterBlanks (atomic : Bool) (cs : List Char) :
    balance (stripped (afterBlanks atomic cs)) = balance (stripped cs) := by
  cases atomic with
  | true => rfl
  | false =>
    cases h : beginsBlank cs with
    | false => rw [afterBlanks_token h]
    | true =>
      rw [stripped_blank h, Brackets.balance_cons]
      exact (Int.zero_add _).symm

/-! ## Uniform patterns -/

/-- The balance of what a uniform pattern matches. -/
def Pattern.net : Pattern → Int
  | .word chars => Brackets.balance chars
  | .seq first second => first.net + second.net
  | .choice first _ => first.net
  | .start | .finish | .char _ | .rule _ | .maybe _ | .many _ | .unless _ => 0

/-- A pattern whose parts fix the balance of what it matches: a class has no brackets, the sides of a
choice agree, and what may be matched or not, or more than once, is balanced. Rules are taken to
match balanced texts. -/
def Pattern.isUniform : Pattern → Bool
  | .char accepts => ['\x7b', '(', '\x7d', ')'].all (!accepts ·)
  | .seq first second => first.isUniform && second.isUniform
  | .choice first second =>
    first.isUniform && second.isUniform && first.net == second.net
  | .maybe p | .many p => p.isUniform && p.net == 0
  | .start | .finish | .word _ | .rule _ | .unless _ => true

theorem weight_of_isUniform {accepts : Char → Bool} (h : (Pattern.char accepts).isUniform = true)
    {x : Char} (hx : accepts x = true) : weight x = 0 := by
  have hreject : ∀ y ∈ ['\x7b', '(', '\x7d', ')'], x ≠ y := by
    rintro y hy rfl
    have hy := List.all_eq_true.mp h x hy
    simp [hx] at hy
  simp only [List.forall_mem_cons] at hreject
  simp [weight, hreject]

/-- What stands for a rule is balanced, if it is clear of layout. -/
theorem Rule.balanced_body {atomic : Bool} {r : Rule} (h : r.isClear atomic = true) :
    r.body.isUniform = true ∧ r.body.net = 0 := by
  have hall : ∀ atomic, ∀ r ∈ all, r.isClear atomic = true →
      r.body.isUniform = true ∧ r.body.net = 0 := by decide
  exact hall atomic r r.mem_all h

/-! ## What a match passes -/

/-- The characters that a match passes outside of comments have a given balance. -/
def Outcome.Passes (c : Cursor) (n : Int) (o : Outcome) : Prop :=
  ∀ pairs next a, o = .matched pairs next a →
    balance (stripped c.rest) = n + balance (stripped next.rest)

/-- A meaning of the rules under which those that are clear of layout match balanced texts. -/
def Call.Balanced (call : Call) : Prop :=
  ∀ r atomic c a, Rule.isClear atomic r = true → (atomic = false → beginsBlank c.rest = false) →
    (call r atomic c a).Passes c 0

section

variable {atomic : Bool} {c next : Cursor} {a b : Attempts}

theorem Cursor.balance_onward (atomic : Bool) (c : Cursor) :
    balance (stripped (c.onward atomic).rest) = balance (stripped c.rest) := by
  rw [rest_onward, balance_stripped_afterBlanks]

theorem Cursor.token_onward (c : Cursor) (h : atomic = false) :
    beginsBlank (c.onward atomic).rest = false := by
  subst h
  exact beginsBlank_skipFrom _ _ _

/-- Where no blank begins, a character that is passed is kept when the text is stripped. -/
theorem Cursor.balance_of_char? {accepts : Char → Bool} (h : c.char? accepts = some next)
    (htoken : beginsBlank c.rest = false ∨ ∀ x, separates x = true → accepts x = false) :
    ∃ x, accepts x = true ∧
      balance (stripped c.rest) = weight x + balance (stripped next.rest) := by
  unfold char? at h
  split at h
  · cases h
  · next x cs hrest =>
    split at h
    · next haccepts =>
      obtain rfl := Option.some.inj h
      have hbegins : beginsBlank c.rest = false := by
        rcases htoken with htoken | hreject
        · exact htoken
        · rw [hrest]
          by_contra hblank
          have hx := hreject x (separates_of_beginsBlank (Bool.eq_true_of_not_eq_false hblank))
          simp [haccepts] at hx
      rw [hrest] at hbegins
      exact ⟨x, haccepts, by rw [hrest, stripped_token hbegins, Brackets.balance_cons]⟩
    · cases h

/-- So is a word that no blank can begin in. -/
theorem Cursor.balance_of_word? {w : List Char} (h : c.word? w = some next)
    (htoken : (beginsBlank c.rest = false ∧ w.length = 1) ∨ ∀ x ∈ w, separates x = false) :
    balance (stripped c.rest) = balance w + balance (stripped next.rest) := by
  induction w generalizing c with
  | nil =>
    obtain rfl := Option.some.inj h
    simp
  | cons x w ih =>
    obtain ⟨mid, hmid, hnext⟩ := Option.bind_eq_some_iff.mp h
    have hfirst : beginsBlank c.rest = false ∨ ∀ y, separates y = true → (y == x) = false := by
      rcases htoken with ⟨htoken, -⟩ | hclear
      · exact .inl htoken
      · refine .inr fun y hy => beq_eq_false_iff_ne.mpr ?_
        rintro rfl
        simp [hclear y] at hy
    obtain ⟨y, hy, hbalance⟩ := balance_of_char? hmid hfirst
    obtain rfl := beq_iff_eq.mp hy
    have hrest := ih hnext <| by
      rcases htoken with ⟨-, hone⟩ | hclear
      · exact .inr (by simp_all)
      · exact .inr fun z hz => hclear z (List.mem_cons_of_mem y hz)
    rw [hbalance, hrest, Brackets.balance_cons, Int.add_assoc]

/-- **A uniform pattern passes characters of its balance,** if the rules pass balanced ones. -/
theorem Call.Balanced.run {call : Call} (hcall : call.Balanced) {p : Pattern}
    (hclear : p.isClear atomic = true) (huniform : p.isUniform = true)
    (htoken : atomic = false → beginsBlank c.rest = false) (a : Attempts) :
    (p.run call atomic c a).Passes c p.net := by
  intro pairs next b h
  replace h := Pattern.derives_of_run h
  induction h with
  | start => cases hclear
  | finish | absent | never | missed => exact (Int.zero_add _).symm
  | @char accepts _ _ passed =>
    have hreject : ∀ x, separates x = true → accepts x = false := fun x hx =>
      (Bool.not_eq_true' _).mp (List.all_eq_true.mp hclear x (separates_iff.mp hx))
    obtain ⟨x, hx, hbalance⟩ := Cursor.balance_of_char? passed (.inr hreject)
    rw [hbalance, weight_of_isUniform huniform hx]
    rfl
  | word passed =>
    refine Cursor.balance_of_word? passed ?_
    rcases (Bool.or_eq_true _ _).mp hclear with hone | hall
    · obtain ⟨hatomic, hlength⟩ := (Bool.and_eq_true _ _).mp hone
      exact .inl ⟨htoken ((Bool.not_eq_true' _).mp hatomic), beq_iff_eq.mp hlength⟩
    · exact .inr fun x hx => (Bool.not_eq_true' _).mp (List.all_eq_true.mp hall x hx)
  | rule matched => exact hcall _ atomic _ _ hclear htoken _ _ _ matched
  | @seq p q c mid next _ _ _ _ ihp ihq =>
    obtain ⟨hclearp, hclearq⟩ := (Bool.and_eq_true _ _).mp hclear
    obtain ⟨hp, hq⟩ := (Bool.and_eq_true _ _).mp huniform
    have hfirst := ihp hclearp hp htoken
    have hsecond := ihq hclearq hq mid.token_onward
    rw [Cursor.balance_onward] at hsecond
    simp only [Pattern.net]
    omega
  | left _ ih =>
    obtain ⟨hclear, -⟩ := (Bool.and_eq_true _ _).mp hclear
    obtain ⟨huniform, -⟩ := (Bool.and_eq_true _ _).mp huniform
    exact ih hclear ((Bool.and_eq_true _ _).mp huniform).1 htoken
  | right _ ih =>
    obtain ⟨-, hclear⟩ := (Bool.and_eq_true _ _).mp hclear
    obtain ⟨huniform, hsame⟩ := (Bool.and_eq_true _ _).mp huniform
    have hsecond := ih hclear ((Bool.and_eq_true _ _).mp huniform).2 htoken
    rwa [← beq_iff_eq.mp hsame] at hsecond
  | once _ ih | round _ ih =>
    obtain ⟨huniform, hzero⟩ := (Bool.and_eq_true _ _).mp huniform
    have hinner := ih hclear huniform htoken
    rwa [beq_iff_eq.mp hzero] at hinner
  | @again p c mid next _ _ _ _ ihrounds ih =>
    obtain ⟨hp, hzero⟩ := (Bool.and_eq_true _ _).mp huniform
    have hrounds := ihrounds hclear huniform htoken
    have hround := ih hclear hp mid.token_onward
    rw [Cursor.balance_onward, beq_iff_eq.mp hzero] at hround
    simp only [Pattern.net] at hrounds ⊢
    omega

/-- **Rules pass balanced characters,** at every depth. -/
theorem Rule.balanced_run (depth : Nat) : Call.Balanced (Rule.run depth) := by
  induction depth with
  | zero => nofun
  | succ depth ih =>
    intro r atomic c a hr htoken pairs next b h
    obtain ⟨inner, hbody, -⟩ := Rule.run_eq_matched h
    obtain ⟨huniform, hzero⟩ := balanced_body hr
    have hnext := ih.run (isClear_body hr) huniform
      (fun hatomic => htoken (Bool.or_eq_false_iff.mp hatomic).1) a inner next b hbody
    rwa [hzero] at hnext

/-- What is matched of a text, by a uniform pattern from the first token on, has the balance of the
pattern. -/
theorem Pattern.balance_of_run {p : Pattern} (hclear : p.isClear false = true)
    (huniform : p.isUniform = true) {pairs : List Pair}
    (h : p.run Rule.outcome false c.skip a = .matched pairs next b) :
    balance (stripped c.rest) = p.net + balance (stripped next.rest) := by
  have hcall : Call.Balanced Rule.outcome := fun r atomic c a => Rule.balanced_run _ r atomic c a
  have hnext := hcall.run hclear huniform (fun h => c.token_onward h) a pairs next b h
  rw [← c.balance_onward false]
  exact hnext

end

end TraceTree

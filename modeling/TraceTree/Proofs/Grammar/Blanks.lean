import TraceTree.Proofs.Grammar.Expectation
import TraceTree.Proofs.Grammar.Layout

set_option autoImplicit false

/-! # Blanks by the rules

Between the parts of a sequence blanks and comments are passed character by character
(`Cursor.skip`). The grammar has rules for them as well, and passing them comes to the same as
matching these again and again: blanks, then comments with the blanks behind each
(`Pattern.run_blanks`). -/

namespace TraceTree

section

variable {cs : List Char}

/-! ## Passing blanks and comments -/

theorem afterBlanks_dropWhile (cs : List Char) :
    afterBlanks false (cs.dropWhile isSpace) = afterBlanks false cs := by
  induction cs with
  | nil => rfl
  | cons x cs ih =>
    cases hx : isSpace x with
    | true => rw [List.dropWhile_cons_of_pos hx, ih, afterBlanks_cons hx]
    | false => rw [List.dropWhile_cons_of_neg (by simp [hx])]

/-- A comment that has begun goes to the end of its line, which is a blank. -/
theorem Cursor.rest_skipFrom_comment (offset : Nat) (cs : List Char) :
    (skipFrom true offset cs).rest = afterBlanks false (cs.dropWhile (· != '\n')) := by
  induction cs generalizing offset with
  | nil => rfl
  | cons x cs ih =>
    by_cases hx : x = '\n'
    · subst hx
      exact rest_skipFrom false _ _ cs
    · have hstays : (x != '\n') = true := by simpa using hx
      have hnext : (x :: cs).dropWhile (· != '\n') = cs.dropWhile (· != '\n') :=
        List.dropWhile_cons_of_pos hstays
      rw [hnext, ← ih (offset + x.utf8Size), skipFrom, if_pos rfl, hstays]

theorem afterBlanks_comment (cs : List Char) :
    afterBlanks false ('/' :: '/' :: cs) = afterBlanks false (cs.dropWhile (· != '\n')) :=
  Cursor.rest_skipFrom_comment _ ('/' :: cs)

/-- Where no blank stands, none begins unless two slashes do. -/
theorem beginsBlank_eq_false (hspace : ∀ x ∈ cs.head?, isSpace x = false)
    (hslashes : ¬ ['/', '/'] <+: cs) : beginsBlank cs = false := by
  match cs with
  | [] => rfl
  | [x] => simp [beginsBlank, hspace x rfl]
  | x :: y :: cs =>
    have hneither : ¬ (x = '/' ∧ y = '/') := by
      simpa [List.cons_prefix_cons, eq_comm] using hslashes
    simpa [beginsBlank, hspace x rfl] using hneither

end

namespace Pattern

variable {cs : List Char}

/-! ## The rules for blanks -/

/-- What may stand between two tokens: blanks, and comments with blanks behind each. -/
def blanks : Pattern :=
  .seq (.many (.rule .whitespace)) (.many (.seq (.rule .comment) (.many (.rule .whitespace))))

theorem isClass_whitespace : (rule .whitespace).IsClass isSpace where
  least := Nat.zero_lt_one
  takes _ cs h := Takes.inside (r := .whitespace) (takes_char h true cs)
  refuses _ h := Refuses.rule (refuses_char h)

/-- Any character but the end of a line goes on with a comment. -/
theorem isClass_commentChar :
    (seq (.unless (text "\n")) (char (fun _ => true))).IsClass (· != '\n') where
  least := Nat.zero_lt_one
  takes x cs h := by
    have hline : ¬ ['\n'] <+: x :: cs := by
      intro hprefix
      rw [← (List.cons_prefix_cons.mp hprefix).1] at h
      cases h
    exact (refuses_word hline).unless.before (takes_char rfl true cs)
  refuses cs h := by
    cases cs with
    | nil => exact (refuses_word (by simp)).unless.seq_refuses (refuses_char nofun)
    | cons x cs =>
      obtain rfl : x = '\n' := by simpa using h x rfl
      exact (takes_word ['\n'] true cs).unless.seq _

theorem takes_comment (cs : List Char) :
    (rule .comment).Takes true ('/' :: '/' :: cs) (cs.dropWhile (· != '\n')) Nothing :=
  Takes.inside (r := .comment)
    ((takes_word ['/', '/'] true cs).before (isClass_commentChar.takes_many cs))

theorem refuses_comment (h : ¬ ['/', '/'] <+: cs) : (rule .comment).Refuses true cs :=
  Refuses.rule ((refuses_word h).seq _)

/-- Comments, each with the blanks behind it, are taken up to the next token. -/
theorem takes_comments (cs : List Char) (hspace : ∀ x ∈ cs.head?, isSpace x = false) :
    (many (seq (.rule .comment) (.many (.rule .whitespace)))).Takes true cs (afterBlanks false cs)
      Nothing := by
  by_cases hslashes : ['/', '/'] <+: cs
  · obtain ⟨line, htext⟩ := hslashes
    have hfirst := (takes_comment line).before
      (isClass_whitespace.takes_many (line.dropWhile (· != '\n')))
    have hmore := takes_comments ((line.dropWhile (· != '\n')).dropWhile isSpace)
      (head?_dropWhile isSpace _)
    rw [afterBlanks_dropWhile, ← afterBlanks_comment] at hmore
    rw [← htext]
    exact hfirst.many Nat.zero_lt_one hmore fun ps qs hps hqs => by rw [hps, hqs]; rfl
  · have hnone := ((refuses_comment hslashes).seq (.many (.rule .whitespace))).many
    rwa [afterBlanks_token (beginsBlank_eq_false hspace hslashes)]
termination_by cs.length
decreasing_by
  have hline := (List.dropWhile_suffix (l := line) (· != '\n')).length_le
  have hspaces := (List.dropWhile_suffix (l := line.dropWhile (· != '\n')) isSpace).length_le
  rw [← htext, List.length_append, List.length_cons]
  omega

theorem takes_blanks (cs : List Char) :
    blanks.Takes true cs (afterBlanks false cs) Nothing := by
  have hcomments := takes_comments (cs.dropWhile isSpace) (head?_dropWhile isSpace cs)
  rw [afterBlanks_dropWhile] at hcomments
  exact (isClass_whitespace.takes_many cs).before hcomments

/-- **Blanks and comments are passed as the rules for them match:** nothing is made and nothing is
noted. -/
theorem run_blanks (c : Cursor) (a : Attempts) :
    blanks.run Rule.outcome true c a = .matched [] c.skip a := by
  obtain ⟨pairs, next, b, hrun, hrest, rfl⟩ := takes_blanks c.rest c a rfl
  have hnext : next = c.skip := by
    refine (leadsTo_of_run hrun).eq_of_rest_eq (c.leadsTo_onward false) ?_
    exact hrest.trans (c.rest_onward false).symm
  have hnoted : (blanks.run Rule.outcome true c a).Leaves (· = a) :=
    leaves_run (fun r _ d b' hb => hb ▸ Rule.leaves_run_atomic _ r d b') rfl
  rw [hrun] at hnoted ⊢
  rw [hnext, show b = a from hnoted]

end Pattern

end TraceTree

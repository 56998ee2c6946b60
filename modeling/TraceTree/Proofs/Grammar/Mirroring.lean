import TraceTree.Proofs.Grammar.Layout
import TraceTree.Proofs.Grammar.Similarity

set_option autoImplicit false

/-! # Matching a stripped text

A text and the stripped text are matched side by side. Whenever a part of a pattern is tried in one
of them, it is tried in the other where the same is left, and with the same success, so that the
pairs that come of it say the same (`Outcome.Mirrors`). For this a pattern must be clear of layout
(`Pattern.isClear`): it looks at characters that can begin a blank only where a token begins, and
never asks for the beginning of the text. All rules below the entry rules are clear, apart from those
for layout itself. -/

namespace TraceTree

/-! ## Patterns that are clear of layout -/

/-- The rules that are clear of layout, within an atomic rule or outside of one. -/
def Rule.isClear (atomic : Bool) (r : Rule) : Bool :=
  if atomic then r == .identChar || r == .keyword
  else r ∉ [.whitespace, .comment, .program, .statementInput, .expressionInput]

/-- A pattern that does not tell a text from the stripped text. A class or a word has none of the
characters that can begin a blank; but where blanks are passed a single character can be any. -/
def Pattern.isClear (atomic : Bool) : Pattern → Bool
  | .start => false
  | .finish => true
  | .char accepts => [' ', '\t', '\r', '\n', '/'].all (!accepts ·)
  | .word chars => (!atomic && chars.length == 1) || chars.all (!separates ·)
  | .rule r => r.isClear atomic
  | .seq first second | .choice first second => first.isClear atomic && second.isClear atomic
  | .maybe p | .many p | .unless p => p.isClear atomic

/-- Clear rules have clear bodies. -/
theorem Rule.isClear_body {atomic : Bool} {r : Rule} (h : r.isClear atomic = true) :
    r.body.isClear (atomic || r.isAtomic) = true := by
  have hall : ∀ atomic, ∀ r ∈ all, r.isClear atomic = true →
      r.body.isClear (atomic || r.isAtomic) = true := by decide
  exact hall atomic r r.mem_all h

theorem separates_iff {x : Char} :
    separates x = true ↔ x ∈ [' ', '\t', '\r', '\n', '/'] := by
  simp [separates, isSpace, or_assoc]

/-! ## Outcomes side by side -/

/-- The outcomes of matching at a place in a text and at one in the stripped text are the same, unless
a bound was met in one of them: the pairs say the same, and what is left is the same. -/
inductive Outcome.Mirrors (atomic : Bool) (c c' : Cursor) : Outcome → Outcome → Prop where
  | matched {pairs pairs' : List Pair} {next next' : Cursor} {a a' : Attempts}
      (hpairs : PairsSimilar pairs pairs') (hpassed : Cursor.Passes atomic c next c' next') :
      Mirrors atomic c c' (.matched pairs next a) (.matched pairs' next' a')
  | failed {a a' : Attempts} : Mirrors atomic c c' (.failed a) (.failed a')
  | exhausted {o o' : Outcome} (h : o = .exhausted ∨ o' = .exhausted) : Mirrors atomic c c' o o'

/-- A meaning of the rules that does not tell a text from the stripped text. -/
def Call.Mirrors (call : Call) : Prop :=
  ∀ r atomic c c' a a', Rule.isClear atomic r = true → Cursor.Mates atomic c c' →
    (call r atomic c a).Mirrors atomic c c' (call r atomic c' a')

section

variable {atomic : Bool} {c c' mid mid' : Cursor} {a a' : Attempts} {o o' : Outcome}
  {pairs pairs' : List Pair}

theorem Outcome.Mirrors.of_onward (h : Mirrors atomic (c.onward atomic) (c'.onward atomic) o o') :
    Mirrors atomic c c' o o' := by
  cases h with
  | matched hpairs hpassed => exact .matched hpairs hpassed.of_onward
  | failed => exact .failed
  | exhausted h => exact .exhausted h

theorem Outcome.Mirrors.prepend (hpairs : PairsSimilar pairs pairs')
    (hpassed : Cursor.Passes atomic c mid c' mid') (h : Mirrors atomic mid mid' o o') :
    Mirrors atomic c c' (o.prepend pairs) (o'.prepend pairs') := by
  cases h with
  | matched hmore hnext => exact .matched (List.rel_append hpairs hmore) (hpassed.trans hnext)
  | failed => exact .failed
  | exhausted h => exact .exhausted (h.imp prepend_eq_exhausted.mpr prepend_eq_exhausted.mpr)

theorem Outcome.mirrors_repeatStep {step : Cursor → Attempts → Outcome}
    (hstep : ∀ d d' b b', d'.rest = stripped d.rest →
      (step d b).Mirrors atomic (d.onward atomic) (d'.onward atomic) (step d' b'))
    (limit limit' : Nat) (h : c'.rest = stripped c.rest) :
    (repeatStep step limit c a).Mirrors atomic c c' (repeatStep step limit' c' a') := by
  induction limit generalizing limit' c c' a a' with
  | zero => exact .exhausted (.inl rfl)
  | succ limit ih =>
    cases limit' with
    | zero => exact .exhausted (.inr rfl)
    | succ limit' =>
      have hround := hstep c c' a a' h
      rw [repeatStep, repeatStep]
      generalize step c a = o, step c' a' = o' at hround
      cases hround with
      | matched hpairs hpassed =>
        exact (ih limit' hpassed.rest).prepend hpairs hpassed.of_onward
      | failed => exact .matched .nil (.refl h)
      | exhausted h =>
        rcases h with rfl | rfl
        exacts [.exhausted (.inl rfl), .exhausted (.inr rfl)]

/-- What is passed in both texts or in none. -/
theorem Outcome.mirrors_option {next? next?' : Option Cursor} :
    Option.Rel (fun next next' => Cursor.Passes atomic c next c' next') next? next?' →
      Mirrors atomic c c'
        (match next? with | some next => .matched [] next a | none => .failed a)
        (match next?' with | some next => .matched [] next a' | none => .failed a') := by
  intro h
  cases h with
  | none => exact .failed
  | some hpassed => exact .matched .nil hpassed

/-- **A clear pattern does not tell a text from the stripped text,** if the rules do not. -/
theorem Call.Mirrors.run {call : Call} (hcall : call.Mirrors) {p : Pattern}
    (hp : p.isClear atomic = true) (h : Cursor.Mates atomic c c') (a a' : Attempts) :
    (p.run call atomic c a).Mirrors atomic c c' (p.run call atomic c' a') := by
  have hhere : ∀ b b', (Outcome.matched [] c b).Mirrors atomic c c' (.matched [] c' b') :=
    fun _ _ => .matched .nil (.refl h.rest)
  induction p generalizing c c' a a' with
  | start => cases hp
  | finish =>
    have hend : c.rest.isEmpty = c'.rest.isEmpty := by
      rw [Bool.eq_iff_iff, List.isEmpty_iff, List.isEmpty_iff, h.rest, stripped_eq_nil]
    rw [Pattern.run, Pattern.run, hend]
    split
    · exact hhere a a'
    · exact .failed
  | char accepts =>
    refine Outcome.mirrors_option (Cursor.char?_mates h.rest (.inr fun x hx => ?_))
    have hreject := List.all_eq_true.mp hp x (separates_iff.mp hx)
    rwa [Bool.not_eq_true'] at hreject
  | word chars =>
    refine Outcome.mirrors_option ?_
    rcases (Bool.or_eq_true _ _).mp hp with hone | hclear
    · obtain ⟨hatomic, hlength⟩ := (Bool.and_eq_true _ _).mp hone
      obtain rfl := (Bool.not_eq_true' _).mp hatomic
      obtain ⟨x, rfl⟩ := List.length_eq_one_iff.mp (beq_iff_eq.mp hlength)
      exact Cursor.word?_singleton_mates h x
    · refine Cursor.word?_mates h.rest fun x hx => ?_
      exact (Bool.not_eq_true' _).mp (List.all_eq_true.mp hclear x hx)
  | rule r => exact hcall r atomic c c' a a' hp h
  | seq p q ihp ihq =>
    obtain ⟨hp, hq⟩ := (Bool.and_eq_true _ _).mp hp
    have hfirst := ihp hp h a a' hhere
    rw [Pattern.run_seq, Pattern.run_seq]
    generalize p.run call atomic c a = o, p.run call atomic c' a' = o' at hfirst
    cases hfirst with
    | matched hpairs hpassed =>
      have hmates := Cursor.mates_onward atomic hpassed.rest
      exact (ihq hq hmates _ _ fun _ _ => .matched .nil (.refl hmates.rest)).of_onward.prepend hpairs
        hpassed
    | failed => exact .failed
    | exhausted h =>
      rcases h with rfl | rfl
      exacts [.exhausted (.inl rfl), .exhausted (.inr rfl)]
  | choice p q ihp ihq =>
    obtain ⟨hp, hq⟩ := (Bool.and_eq_true _ _).mp hp
    have hfirst := ihp hp h a a' hhere
    rw [Pattern.run, Pattern.run]
    generalize p.run call atomic c a = o, p.run call atomic c' a' = o' at hfirst
    cases hfirst with
    | matched hpairs hpassed => exact .matched hpairs hpassed
    | failed => exact ihq hq h _ _ hhere
    | exhausted h =>
      rcases h with rfl | rfl
      exacts [.exhausted (.inl rfl), .exhausted (.inr rfl)]
  | maybe p ih =>
    have hfirst := ih hp h a a' hhere
    rw [Pattern.run, Pattern.run]
    generalize p.run call atomic c a = o, p.run call atomic c' a' = o' at hfirst
    cases hfirst with
    | matched hpairs hpassed => exact .matched hpairs hpassed
    | failed => exact hhere _ _
    | exhausted h =>
      rcases h with rfl | rfl
      exacts [.exhausted (.inl rfl), .exhausted (.inr rfl)]
  | many p ih =>
    have hround : ∀ (d d' : Cursor) b b', d'.rest = stripped d.rest →
        (p.run call atomic (d.onward atomic) b).Mirrors atomic (d.onward atomic) (d'.onward atomic)
          (p.run call atomic (d'.onward atomic) b') := by
      intro d d' b b' hd
      have hmates := Cursor.mates_onward atomic hd
      exact ih hp hmates b b' fun _ _ => .matched .nil (.refl hmates.rest)
    have hfirst := ih hp h a a' hhere
    rw [Pattern.run_many, Pattern.run_many]
    generalize p.run call atomic c a = o, p.run call atomic c' a' = o' at hfirst
    cases hfirst with
    | matched hpairs hpassed =>
      exact (Outcome.mirrors_repeatStep hround _ _ hpassed.rest).prepend hpairs hpassed
    | failed => exact hhere _ _
    | exhausted h =>
      rcases h with rfl | rfl
      exacts [.exhausted (.inl rfl), .exhausted (.inr rfl)]
  | «unless» p ih =>
    have hfirst := ih hp h a a' hhere
    rw [Pattern.run, Pattern.run]
    generalize p.run call atomic c a = o, p.run call atomic c' a' = o' at hfirst
    cases hfirst with
    | matched hpairs hpassed => exact .failed
    | failed => exact hhere _ _
    | exhausted h =>
      rcases h with rfl | rfl
      exacts [.exhausted (.inl rfl), .exhausted (.inr rfl)]

/-- **Clear rules do not tell a text from the stripped text,** at every depth. -/
theorem Rule.mirrors_run (depth : Nat) : Call.Mirrors (Rule.run depth) := by
  induction depth with
  | zero => exact fun _ _ _ _ _ _ _ _ => .exhausted (.inl rfl)
  | succ depth ih =>
    intro r atomic c c' a a' hr h
    have hmates : Cursor.Mates (atomic || r.isAtomic) c c' :=
      ⟨h.rest, fun hatomic => h.token (Bool.or_eq_false_iff.mp hatomic).1⟩
    have hbody := ih.run (isClear_body hr) hmates a a'
    rw [Rule.run, Rule.run]
    cases hrun : r.body.run (Rule.run depth) (atomic || r.isAtomic) c a with
    | exhausted => exact .exhausted (.inl rfl)
    | failed b =>
      rw [hrun] at hbody
      generalize r.body.run (Rule.run depth) (atomic || r.isAtomic) c' a' = o' at hbody
      cases hbody with
      | failed =>
        dsimp only
        split <;> exact .failed
      | exhausted h =>
        obtain rfl := h.resolve_left Outcome.failed_ne_exhausted
        exact .exhausted (.inr rfl)
    | matched inner next b =>
      rw [hrun] at hbody
      generalize r.body.run (Rule.run depth) (atomic || r.isAtomic) c' a' = o' at hbody
      cases hbody with
      | matched hinner hpassed =>
        have hnext : Cursor.Passes atomic c next c' _ :=
          ⟨hpassed.rest, fun hatomic => hpassed.same (by rw [hatomic, Bool.true_or])⟩
        dsimp only
        cases hseen : atomic || r.isSilent with
        | true => exact .matched hinner hnext
        | false =>
          -- a pair is made; its text is the same if blanks count inside the rule
          obtain ⟨rfl, -⟩ := Bool.or_eq_false_iff.mp hseen
          rw [Bool.false_or] at hrun hpassed
          refine .matched (.cons (.mk (rules_mem_parts hrun) (fun hatomic => ?_) hinner) .nil) hnext
          rw [hatomic] at hpassed
          exact hpassed.upTo_eq
      | exhausted h =>
        obtain rfl := h.resolve_left Outcome.matched_ne_exhausted
        exact .exhausted (.inr rfl)

theorem Rule.mirrors_outcome : Call.Mirrors Rule.outcome := by
  intro r atomic c c' a a' hr h
  -- a depth that is enough for both texts
  have hleft := extends_run (Nat.le_max_left (depthFor c.rest) (depthFor c'.rest)) r atomic c a
    (r.outcome_ne_exhausted atomic c a)
  have hright := extends_run (Nat.le_max_right (depthFor c.rest) (depthFor c'.rest)) r atomic c' a'
    (r.outcome_ne_exhausted atomic c' a')
  rw [outcome, outcome, ← hleft, ← hright]
  exact mirrors_run _ r atomic c c' a a' hr h

end

/-! ## Matching side by side -/

/-- **A clear pattern matches in a text and in the stripped text, or in neither of them.** The pairs
say the same. -/
theorem Pattern.matches_or_misses {p : Pattern} (hp : p.isClear false = true)
    (hadvances : p.Advances) {c c' : Cursor} (h : Cursor.Mates false c c') :
    (∃ pairs next pairs' next', p.Matches c pairs next ∧ p.Matches c' pairs' next' ∧
      PairsSimilar pairs pairs') ∨ (p.Misses c ∧ p.Misses c') := by
  have hmirrors := Rule.mirrors_outcome.run hp h .empty .empty
  have hne := run_outcome_ne_exhausted hadvances false c .empty
  have hne' := run_outcome_ne_exhausted hadvances false c' .empty
  generalize hrun : p.run Rule.outcome false c .empty = o,
    hrun' : p.run Rule.outcome false c' .empty = o' at hmirrors hne hne'
  cases hmirrors with
  | matched hpairs _ =>
    exact .inl ⟨_, _, _, _, matches_of_run hrun, matches_of_run hrun', hpairs⟩
  | failed => exact .inr ⟨misses_of_run hrun, misses_of_run hrun'⟩
  | exhausted h => exact absurd h (not_or_intro hne hne')

end TraceTree

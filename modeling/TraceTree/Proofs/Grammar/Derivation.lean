import TraceTree.Grammar.Recogniser

set_option autoImplicit false

/-! # What a match is made of

A match of a pattern is made of matches of its parts. `Pattern.Derives` says so without the attempts
that are handed from one match to the next and without the bound on repetitions, so what holds of
every match is shown by induction on its derivation (`Pattern.derives_of_run`). -/

namespace TraceTree

/-- A meaning of the rules, for a pattern that mentions them. -/
abbrev Call := Rule → Bool → Cursor → Attempts → Outcome

/-- The place where the next part of a sequence begins. -/
def Cursor.onward (atomic : Bool) (c : Cursor) : Cursor := if atomic then c else c.skip

/-! ## Taking matches apart -/

theorem Outcome.prepend_eq_matched {pairs all : List Pair} {o : Outcome} {next : Cursor}
    {a : Attempts} (h : o.prepend pairs = .matched all next a) :
    ∃ more, o = .matched more next a ∧ all = pairs ++ more := by
  cases o with
  | matched more n b =>
    obtain ⟨rfl, rfl, rfl⟩ := Outcome.matched.inj h
    exact ⟨more, rfl, rfl⟩
  | failed b => cases h
  | exhausted => cases h

section

variable {call : Call} {atomic : Bool} {c next : Cursor} {a a' : Attempts} {pairs : List Pair}

theorem Pattern.run_seq (call : Call) (atomic : Bool) (p q : Pattern) (c : Cursor) (a : Attempts) :
    (seq p q).run call atomic c a =
      match p.run call atomic c a with
      | .matched pairs next a' => (q.run call atomic (next.onward atomic) a').prepend pairs
      | other => other :=
  rfl

theorem Pattern.run_many (call : Call) (atomic : Bool) (p : Pattern) (c : Cursor) (a : Attempts) :
    (many p).run call atomic c a =
      match p.run call atomic c a with
      | .matched pairs next a' =>
        (repeatStep (fun d => p.run call atomic (d.onward atomic))
          (next.rest.length + 1) next a').prepend pairs
      | .failed a' => .matched [] c a'
      | .exhausted => .exhausted :=
  rfl

/-- A sequence matches part by part. -/
theorem Pattern.run_seq_eq_matched {p q : Pattern}
    (h : (seq p q).run call atomic c a = .matched pairs next a') :
    ∃ ps mid b qs, p.run call atomic c a = .matched ps mid b ∧
      q.run call atomic (mid.onward atomic) b = .matched qs next a' ∧ pairs = ps ++ qs := by
  rw [run_seq] at h
  split at h
  · next ps mid b hp =>
    obtain ⟨qs, hq, rfl⟩ := Outcome.prepend_eq_matched h
    exact ⟨ps, mid, b, qs, hp, hq, rfl⟩
  · next hp => exact absurd h (hp pairs next a')

/-- A repetition goes round once more or ends. -/
theorem repeatStep_eq_matched {step : Cursor → Attempts → Outcome} {limit : Nat}
    (h : repeatStep step (limit + 1) c a = .matched pairs next a') :
    (∃ ps mid b qs, step c a = .matched ps mid b ∧
      repeatStep step limit mid b = .matched qs next a' ∧ pairs = ps ++ qs) ∨
    (step c a = .failed a' ∧ pairs = [] ∧ next = c) := by
  rw [repeatStep] at h
  split at h
  · next ps mid b hstep =>
    obtain ⟨qs, hrest, rfl⟩ := Outcome.prepend_eq_matched h
    exact .inl ⟨ps, mid, b, qs, hstep, hrest, rfl⟩
  · next b hstep =>
    obtain ⟨rfl, rfl, rfl⟩ := Outcome.matched.inj h
    exact .inr ⟨hstep, rfl, rfl⟩
  · cases h

/-- The pattern goes round as the step of its own repetition. -/
theorem Pattern.run_many_eq_matched {p : Pattern}
    (h : (many p).run call atomic c a = .matched pairs next a') :
    (∃ ps mid b qs, p.run call atomic c a = .matched ps mid b ∧
      repeatStep (fun d => p.run call atomic (d.onward atomic)) (mid.rest.length + 1) mid b =
        .matched qs next a' ∧ pairs = ps ++ qs) ∨
    (p.run call atomic c a = .failed a' ∧ pairs = [] ∧ next = c) := by
  rw [run_many] at h
  split at h
  · next ps mid b hp =>
    obtain ⟨qs, hrest, rfl⟩ := Outcome.prepend_eq_matched h
    exact .inl ⟨ps, mid, b, qs, hp, hrest, rfl⟩
  · next b hp =>
    obtain ⟨rfl, rfl, rfl⟩ := Outcome.matched.inj h
    exact .inr ⟨hp, rfl, rfl⟩
  · cases h

/-- A rule matches where its body does. -/
theorem Rule.run_eq_matched {depth : Nat} {r : Rule}
    (h : Rule.run (depth + 1) r atomic c a = .matched pairs next a') :
    ∃ inner, r.body.run (Rule.run depth) (atomic || r.isAtomic) c a = .matched inner next a' ∧
      pairs = if atomic || r.isSilent then inner
        else [.mk r ⟨c.offset, next.offset⟩ (c.upTo next) inner] := by
  rw [Rule.run] at h
  split at h
  · next inner mid b hbody =>
    split at h
    · next hsilent =>
      obtain ⟨rfl, rfl, rfl⟩ := Outcome.matched.inj h
      exact ⟨inner, hbody, (if_pos hsilent).symm⟩
    · next hsilent =>
      obtain ⟨rfl, rfl, rfl⟩ := Outcome.matched.inj h
      exact ⟨inner, hbody, (if_neg hsilent).symm⟩
  · next b hbody => split at h <;> cases h
  · cases h

/-! ## Derivations -/

/-- A match of a pattern that begins at one place can make these pairs and end at the other place.
Which side of a choice is taken and how often a repetition goes round is left open, and so is whether
blanks come before its first round. -/
inductive Pattern.Derives (call : Call) (atomic : Bool) :
    Pattern → Cursor → List Pair → Cursor → Prop where
  | start {c : Cursor} (begins : c.offset = 0) : Derives call atomic .start c [] c
  | finish {c : Cursor} (ends : c.rest = []) : Derives call atomic .finish c [] c
  | char {accepts : Char → Bool} {c next : Cursor} (passed : c.char? accepts = some next) :
      Derives call atomic (.char accepts) c [] next
  | word {chars : List Char} {c next : Cursor} (passed : c.word? chars = some next) :
      Derives call atomic (.word chars) c [] next
  | rule {r : Rule} {c next : Cursor} {a a' : Attempts} {pairs : List Pair}
      (matched : call r atomic c a = .matched pairs next a') :
      Derives call atomic (.rule r) c pairs next
  | seq {p q : Pattern} {c mid next : Cursor} {ps qs : List Pair}
      (first : Derives call atomic p c ps mid)
      (second : Derives call atomic q (mid.onward atomic) qs next) :
      Derives call atomic (.seq p q) c (ps ++ qs) next
  | left {p q : Pattern} {c next : Cursor} {pairs : List Pair}
      (first : Derives call atomic p c pairs next) : Derives call atomic (.choice p q) c pairs next
  | right {p q : Pattern} {c next : Cursor} {pairs : List Pair}
      (second : Derives call atomic q c pairs next) : Derives call atomic (.choice p q) c pairs next
  | once {p : Pattern} {c next : Cursor} {pairs : List Pair}
      (inner : Derives call atomic p c pairs next) : Derives call atomic (.maybe p) c pairs next
  | absent {p : Pattern} {c : Cursor} : Derives call atomic (.maybe p) c [] c
  | never {p : Pattern} {c : Cursor} : Derives call atomic (.many p) c [] c
  | round {p : Pattern} {c next : Cursor} {pairs : List Pair}
      (inner : Derives call atomic p c pairs next) : Derives call atomic (.many p) c pairs next
  | again {p : Pattern} {c mid next : Cursor} {ps qs : List Pair}
      (rounds : Derives call atomic (.many p) c ps mid)
      (inner : Derives call atomic p (mid.onward atomic) qs next) :
      Derives call atomic (.many p) c (ps ++ qs) next
  | missed {p : Pattern} {c : Cursor} : Derives call atomic (.unless p) c [] c

/-- The rounds that a repetition goes further are added to those it has gone. -/
theorem Pattern.Derives.repeatStep {p : Pattern} {mid : Cursor} {ps qs : List Pair} {limit : Nat}
    (hround : ∀ d b rs e b', p.run call atomic d b = .matched rs e b' →
      p.Derives call atomic d rs e)
    (rounds : (Pattern.many p).Derives call atomic c ps mid)
    (h : TraceTree.repeatStep (fun d => p.run call atomic (d.onward atomic)) limit mid a =
      .matched qs next a') : (Pattern.many p).Derives call atomic c (ps ++ qs) next := by
  induction limit generalizing mid a ps qs with
  | zero => cases h
  | succ limit ih =>
    rcases repeatStep_eq_matched h with ⟨rs, e, b, more, hfirst, hrest, rfl⟩ | ⟨-, rfl, rfl⟩
    · rw [← List.append_assoc]
      exact ih (rounds.again (hround _ _ _ _ _ hfirst)) hrest
    · rwa [List.append_nil]

/-- **A match has a derivation.** -/
theorem Pattern.derives_of_run {p : Pattern}
    (h : p.run call atomic c a = .matched pairs next a') : p.Derives call atomic c pairs next := by
  induction p generalizing c a pairs next a' with
  | start =>
    rw [run] at h
    split at h
    · next hbegins =>
      cases h
      exact .start hbegins
    · cases h
  | finish =>
    rw [run] at h
    split at h
    · next hends =>
      cases h
      exact .finish (List.isEmpty_iff.mp hends)
    · cases h
  | char accepts =>
    rw [run] at h
    split at h
    · next hpassed =>
      cases h
      exact .char hpassed
    · cases h
  | word chars =>
    rw [run] at h
    split at h
    · next hpassed =>
      cases h
      exact .word hpassed
    · cases h
  | rule r => exact .rule h
  | seq p q ihp ihq =>
    obtain ⟨ps, mid, b, qs, hp, hq, rfl⟩ := run_seq_eq_matched h
    exact .seq (ihp hp) (ihq hq)
  | choice p q ihp ihq =>
    rw [run] at h
    split at h
    · exact .right (ihq h)
    · exact .left (ihp h)
  | maybe p ih =>
    rw [run] at h
    split at h
    · cases h
      exact .absent
    · exact .once (ih h)
  | many p ih =>
    rcases run_many_eq_matched h with ⟨ps, mid, b, qs, hp, hrest, rfl⟩ | ⟨-, rfl, rfl⟩
    · exact Derives.repeatStep (fun _ _ _ _ _ => ih) (.round (ih hp)) hrest
    · exact .never
  | «unless» p _ =>
    rw [run] at h
    split at h
    · cases h
    · cases h
      exact .missed
    · cases h

end

end TraceTree

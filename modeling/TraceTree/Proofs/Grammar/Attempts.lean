import TraceTree.Proofs.Grammar.Pairs

set_option autoImplicit false

/-! # Attempts decide nothing

Attempts are handed from one match to the next, but only to be reported: whether a pattern matches at
a place, the pairs it makes there and the place after it do not depend on them. So it makes sense to
say that a pattern matches or misses at a place (`Pattern.Matches`, `Pattern.Misses`), and these follow
the structure of the pattern in both directions. -/

namespace TraceTree

/-! ## Outcomes that differ in their attempts -/

/-- The same outcome, whatever was attempted. -/
inductive Outcome.Alike : Outcome → Outcome → Prop where
  | matched {pairs : List Pair} {next : Cursor} {a b : Attempts} :
      Alike (.matched pairs next a) (.matched pairs next b)
  | failed {a b : Attempts} : Alike (.failed a) (.failed b)
  | exhausted : Alike .exhausted .exhausted

/-- Rules whose outcome does not depend on what was attempted before. -/
def Call.Settled (call : Call) : Prop :=
  ∀ r atomic c a b, (call r atomic c a).Alike (call r atomic c b)

theorem Outcome.Alike.prepend {o o' : Outcome} (h : o.Alike o') (pairs : List Pair) :
    (o.prepend pairs).Alike (o'.prepend pairs) := by
  cases h with
  | matched => exact .matched
  | failed => exact .failed
  | exhausted => exact .exhausted

theorem Outcome.alike_repeatStep {step : Cursor → Attempts → Outcome}
    (h : ∀ c a b, (step c a).Alike (step c b)) (limit : Nat) (c : Cursor) (a b : Attempts) :
    (repeatStep step limit c a).Alike (repeatStep step limit c b) := by
  induction limit generalizing c a b with
  | zero => exact .exhausted
  | succ limit ih =>
    rw [repeatStep, repeatStep]
    have hstep := h c a b
    generalize step c a = o, step c b = o' at hstep
    cases hstep with
    | matched => exact (ih _ _ _).prepend _
    | failed => exact .matched
    | exhausted => exact .exhausted

/-- **The outcome of a pattern does not depend on what was attempted before.** -/
theorem Call.Settled.run {call : Call} (hcall : call.Settled) (atomic : Bool) (p : Pattern)
    (c : Cursor) (a b : Attempts) : (p.run call atomic c a).Alike (p.run call atomic c b) := by
  induction p generalizing c a b with
  | start | finish | char accepts | word chars =>
    simp only [Pattern.run]
    split
    · exact .matched
    · exact .failed
  | rule r => exact hcall r atomic c a b
  | seq p q ihp ihq =>
    rw [Pattern.run_seq, Pattern.run_seq]
    have hp := ihp c a b
    generalize p.run call atomic c a = o, p.run call atomic c b = o' at hp
    cases hp with
    | matched => exact (ihq _ _ _).prepend _
    | failed => exact .failed
    | exhausted => exact .exhausted
  | choice p q ihp ihq =>
    rw [Pattern.run, Pattern.run]
    have hp := ihp c a b
    generalize p.run call atomic c a = o, p.run call atomic c b = o' at hp
    cases hp with
    | matched => exact .matched
    | failed => exact ihq _ _ _
    | exhausted => exact .exhausted
  | maybe p ih =>
    rw [Pattern.run, Pattern.run]
    have hp := ih c a b
    generalize p.run call atomic c a = o, p.run call atomic c b = o' at hp
    cases hp with
    | matched => exact .matched
    | failed => exact .matched
    | exhausted => exact .exhausted
  | many p ih =>
    rw [Pattern.run_many, Pattern.run_many]
    have hp := ih c a b
    generalize p.run call atomic c a = o, p.run call atomic c b = o' at hp
    cases hp with
    | matched => exact (Outcome.alike_repeatStep (fun _ => ih _) _ _ _ _).prepend _
    | failed => exact .matched
    | exhausted => exact .exhausted
  | «unless» p ih =>
    rw [Pattern.run, Pattern.run]
    have hp := ih c a b
    generalize p.run call atomic c a = o, p.run call atomic c b = o' at hp
    cases hp with
    | matched => exact .failed
    | failed => exact .matched
    | exhausted => exact .exhausted

theorem Rule.settled_run (depth : Nat) : Call.Settled (Rule.run depth) := by
  induction depth with
  | zero => exact fun _ _ _ _ _ => .exhausted
  | succ depth ih =>
    intro r atomic c a b
    rw [Rule.run, Rule.run]
    have hbody := ih.run (atomic || r.isAtomic) r.body c a b
    generalize r.body.run (Rule.run depth) (atomic || r.isAtomic) c a = o,
      r.body.run (Rule.run depth) (atomic || r.isAtomic) c b = o' at hbody
    cases hbody with
    | matched =>
      dsimp only
      split <;> exact .matched
    | failed =>
      dsimp only
      split <;> exact .failed
    | exhausted => exact .exhausted

theorem Rule.settled_outcome : Call.Settled Rule.outcome :=
  fun r atomic c a b => settled_run _ r atomic c a b

/-! ## Matching and missing at a place -/

namespace Pattern

/-- A pattern matches at a place, whatever was attempted before. -/
def Matches (p : Pattern) (c : Cursor) (pairs : List Pair) (next : Cursor) : Prop :=
  ∀ a, ∃ a', p.run Rule.outcome false c a = .matched pairs next a'

/-- A pattern does not match at a place. -/
def Misses (p : Pattern) (c : Cursor) : Prop := ∀ a, ∃ a', p.run Rule.outcome false c a = .failed a'

variable {p q : Pattern} {r : Rule} {c next : Cursor} {pairs : List Pair} {a a' : Attempts}

/-- What matches once matches always. -/
theorem matches_of_run (h : p.run Rule.outcome false c a = .matched pairs next a') :
    p.Matches c pairs next := by
  intro b
  have halike := Rule.settled_outcome.run false p c a b
  rw [h] at halike
  generalize p.run Rule.outcome false c b = o at halike
  cases halike with
  | matched => exact ⟨_, rfl⟩

/-- What fails once fails always. -/
theorem misses_of_run (h : p.run Rule.outcome false c a = .failed a') : p.Misses c := by
  intro b
  have halike := Rule.settled_outcome.run false p c a b
  rw [h] at halike
  generalize p.run Rule.outcome false c b = o at halike
  cases halike with
  | failed => exact ⟨_, rfl⟩

/-- What refuses the text after a place misses there. -/
theorem Refuses.misses (h : p.Refuses false c.rest) : p.Misses c := fun a => h c a rfl

theorem Matches.not_misses (h : p.Matches c pairs next) : ¬ p.Misses c := by
  intro hmisses
  obtain ⟨_, hmatched⟩ := h .empty
  obtain ⟨_, hfailed⟩ := hmisses .empty
  rw [hmatched] at hfailed
  cases hfailed

theorem matches_start : start.Matches c pairs next ↔ c.offset = 0 ∧ pairs = [] ∧ next = c := by
  constructor
  · intro h
    obtain ⟨a', hrun⟩ := h .empty
    rw [run] at hrun
    split at hrun
    · next hoffset =>
      obtain ⟨rfl, rfl, -⟩ := Outcome.matched.inj hrun
      exact ⟨hoffset, rfl, rfl⟩
    · cases hrun
  · rintro ⟨hoffset, rfl, rfl⟩ a
    exact ⟨a, by rw [run, if_pos hoffset]⟩

theorem matches_finish : finish.Matches c pairs next ↔ c.rest = [] ∧ pairs = [] ∧ next = c := by
  constructor
  · intro h
    obtain ⟨a', hrun⟩ := h .empty
    rw [run] at hrun
    split at hrun
    · next hrest =>
      obtain ⟨rfl, rfl, -⟩ := Outcome.matched.inj hrun
      exact ⟨List.isEmpty_iff.mp hrest, rfl, rfl⟩
    · cases hrun
  · rintro ⟨hrest, rfl, rfl⟩ a
    exact ⟨a, by rw [run, if_pos (List.isEmpty_iff.mpr hrest)]⟩

/-- A pattern without rules makes nothing. -/
theorem Matches.eq_nil (h : p.Matches c pairs next) (hp : p.rules = []) : pairs = [] := by
  obtain ⟨a', hrun⟩ := h .empty
  exact eq_nil_of_run hp hrun

theorem matches_seq : (seq p q).Matches c pairs next ↔
    ∃ ps mid qs, p.Matches c ps mid ∧ q.Matches mid.skip qs next ∧ pairs = ps ++ qs := by
  constructor
  · intro h
    obtain ⟨a', hrun⟩ := h .empty
    obtain ⟨ps, mid, b, qs, hp, hq, rfl⟩ := run_seq_eq_matched hrun
    exact ⟨ps, mid, qs, matches_of_run hp, matches_of_run hq, rfl⟩
  · rintro ⟨ps, mid, qs, hp, hq, rfl⟩ a
    obtain ⟨b, hp⟩ := hp a
    obtain ⟨a', hq⟩ := hq b
    refine ⟨a', ?_⟩
    rw [run_seq, hp]
    exact congrArg (Outcome.prepend ps) hq

/-- How a sequence of three is divided does not matter. -/
theorem matches_seq_assoc {s : Pattern} : (seq p (seq q s)).Matches c pairs next ↔
    (seq (seq p q) s).Matches c pairs next := by
  constructor
  · intro h
    obtain ⟨ps, mid, rest, hp, hrest, rfl⟩ := matches_seq.mp h
    obtain ⟨qs, last, ss, hq, hs, rfl⟩ := matches_seq.mp hrest
    have hfirst := matches_seq.mpr ⟨ps, mid, qs, hp, hq, rfl⟩
    exact matches_seq.mpr ⟨ps ++ qs, last, ss, hfirst, hs, (List.append_assoc ps qs ss).symm⟩
  · intro h
    obtain ⟨first, last, ss, hfirst, hs, rfl⟩ := matches_seq.mp h
    obtain ⟨ps, mid, qs, hp, hq, rfl⟩ := matches_seq.mp hfirst
    have hrest := matches_seq.mpr ⟨qs, last, ss, hq, hs, rfl⟩
    exact matches_seq.mpr ⟨ps, mid, qs ++ ss, hp, hrest, List.append_assoc ps qs ss⟩

theorem matches_choice : (choice p q).Matches c pairs next ↔
    p.Matches c pairs next ∨ (p.Misses c ∧ q.Matches c pairs next) := by
  constructor
  · intro h
    obtain ⟨a', hrun⟩ := h .empty
    rw [run] at hrun
    split at hrun
    · next b hp => exact Or.inr ⟨misses_of_run hp, matches_of_run hrun⟩
    · exact Or.inl (matches_of_run hrun)
  · rintro (hp | ⟨hp, hq⟩) a
    · obtain ⟨a', hp⟩ := hp a
      exact ⟨a', by rw [run, hp]⟩
    · obtain ⟨b, hp⟩ := hp a
      obtain ⟨a', hq⟩ := hq b
      exact ⟨a', by rw [run, hp]; exact hq⟩

/-- A silent rule matches what its body does. -/
theorem matches_silent (hsilent : r.isSilent = true) (hatomic : r.isAtomic = false) :
    (rule r).Matches c pairs next ↔ r.body.Matches c pairs next := by
  have hrun : ∀ a, (rule r).run Rule.outcome false c a = r.body.run Rule.outcome false c a := by
    intro a
    rw [run, Rule.outcome_eq, hsilent, hatomic, Bool.or_false]
    cases r.body.run Rule.outcome false c a <;> rfl
  exact forall_congr' fun a => by rw [hrun a]

/-- Any other rule makes a pair of what its body makes. -/
theorem matches_loud (hloud : r.isSilent = false) (hatomic : r.isAtomic = false) :
    (rule r).Matches c pairs next ↔ ∃ inner, r.body.Matches c inner next ∧
      pairs = [.mk r ⟨c.offset, next.offset⟩ (c.upTo next) inner] := by
  constructor
  · intro h
    obtain ⟨a', hrun⟩ := h .empty
    obtain ⟨inner, b, hbody, rfl⟩ := Rule.outcome_eq_matched hloud hrun
    rw [hatomic] at hbody
    exact ⟨inner, matches_of_run hbody, rfl⟩
  · rintro ⟨inner, hbody, rfl⟩ a
    obtain ⟨a', hbody⟩ := hbody a
    exact ⟨a', Rule.outcome_matched hloud hatomic hbody⟩

/-- A repetition that goes round once and misses then. -/
theorem Matches.many_once (h : p.Matches c pairs next) (hmisses : p.Misses next.skip) :
    (many p).Matches c pairs next := by
  intro a
  obtain ⟨b, hp⟩ := h a
  obtain ⟨a', hmisses⟩ := hmisses b
  refine ⟨a', ?_⟩
  rw [run_many, hp]
  dsimp only
  rw [repeatStep, show p.run Rule.outcome false (next.onward false) b = .failed a' from hmisses]
  exact congrArg (Outcome.matched · next a') (List.append_nil pairs)

/-- A repetition goes round never, once, or twice and perhaps more often. -/
theorem Matches.many_cases (h : (many p).Matches c pairs next) :
    pairs = [] ∨ (p.Matches c pairs next ∧ p.Misses next.skip) ∨
      ∃ ps mid qs last rest, p.Matches c ps mid ∧ p.Matches mid.skip qs last ∧
        pairs = ps ++ (qs ++ rest) := by
  obtain ⟨a', hrun⟩ := h .empty
  rcases run_many_eq_matched hrun with ⟨ps, mid, b, qs, hp, hrest, rfl⟩ | ⟨-, hpairs, -⟩
  · rcases repeatStep_eq_matched hrest with ⟨qs', last, b', rest, hq, -, rfl⟩ | ⟨hq, rfl, rfl⟩
    · exact Or.inr (Or.inr ⟨ps, mid, qs', last, rest, matches_of_run hp, matches_of_run hq, rfl⟩)
    · rw [List.append_nil]
      exact Or.inr (Or.inl ⟨matches_of_run hp, misses_of_run hq⟩)
  · exact Or.inl hpairs

end Pattern

end TraceTree

import TraceTree.Proofs.Grammar.Termination

set_option autoImplicit false

/-! # What a pattern takes and what it refuses

A pattern takes a text if it matches where the text begins, whatever came before and whatever was
tried there; what it leaves is the text where the next part of a sequence begins. It refuses a text
if it does not match there. One rule for each way of making patterns says what the whole takes or
refuses when the parts do. -/

namespace TraceTree

/-! ## Blanks -/

/-- The text where the next part of a sequence begins. -/
def afterBlanks (atomic : Bool) (cs : List Char) : List Char :=
  if atomic then cs else (Cursor.skipFrom false 0 cs).rest

/-- A text that begins with neither a blank nor a slash. -/
def Solid (cs : List Char) : Prop :=
  ∀ x ∈ cs.head?, isSpace x = false ∧ x ≠ '/'

theorem Cursor.rest_skipFrom (inComment : Bool) (offset offset' : Nat) (cs : List Char) :
    (skipFrom inComment offset cs).rest = (skipFrom inComment offset' cs).rest := by
  induction cs generalizing inComment offset offset' with
  | nil => rfl
  | cons c cs ih =>
    simp only [skipFrom]
    repeat' split
    · exact ih _ _ _
    · exact ih _ _ _
    · exact ih _ _ _
    · rfl

theorem Cursor.rest_onward (atomic : Bool) (c : Cursor) :
    (c.onward atomic).rest = afterBlanks atomic c.rest := by
  cases atomic with
  | true => rfl
  | false => exact rest_skipFrom _ _ _ _

/-- Blanks are passed at once. -/
theorem Cursor.rest_skipFrom_skipFrom (inComment : Bool) (offset offset' : Nat) (cs : List Char) :
    (skipFrom false offset' (skipFrom inComment offset cs).rest).rest =
      (skipFrom inComment offset cs).rest := by
  induction cs generalizing inComment offset with
  | nil => rfl
  | cons c cs ih =>
    simp only [skipFrom]
    split
    · exact ih _ _
    · split
      · exact ih _ _
      · split
        · exact ih _ _
        · next hspace hslash => simp only [skipFrom, hspace, hslash, Bool.false_eq_true, if_false]

theorem afterBlanks_afterBlanks (atomic : Bool) (cs : List Char) :
    afterBlanks atomic (afterBlanks atomic cs) = afterBlanks atomic cs := by
  cases atomic with
  | true => rfl
  | false => exact Cursor.rest_skipFrom_skipFrom _ _ _ _

theorem afterBlanks_cons {x : Char} (hx : isSpace x = true) (cs : List Char) :
    afterBlanks false (x :: cs) = afterBlanks false cs := by
  simp only [afterBlanks, Bool.false_eq_true, if_false, Cursor.skipFrom, hx, if_true]
  exact Cursor.rest_skipFrom _ _ _ _

theorem Solid.afterBlanks_eq {cs : List Char} (h : Solid cs) : afterBlanks false cs = cs := by
  cases cs with
  | nil => rfl
  | cons x cs =>
    obtain ⟨hspace, hslash⟩ := h x rfl
    simp [afterBlanks, Cursor.skipFrom, hspace, hslash]

/-! ## Words -/

theorem Cursor.word?_append {w cs : List Char} {c : Cursor} (h : c.rest = w ++ cs) :
    ∃ offset, c.word? w = some ⟨offset, cs⟩ := by
  induction w generalizing c with
  | nil => exact ⟨c.offset, congrArg (fun rest => some (Cursor.mk c.offset rest)) h⟩
  | cons x w ih =>
    obtain ⟨offset, hnext⟩ := @ih ⟨c.offset + x.utf8Size, w ++ cs⟩ rfl
    exact ⟨offset, by simpa [word?, char?, h] using hnext⟩

theorem Cursor.word?_eq_none {w : List Char} {c : Cursor} (h : ¬ w <+: c.rest) :
    c.word? w = none := by
  induction w generalizing c with
  | nil => exact absurd List.nil_prefix h
  | cons x w ih =>
    match hrest : c.rest with
    | [] => simp [word?, char?, hrest]
    | y :: cs =>
      by_cases hxy : y = x
      · subst hxy
        rw [hrest, List.cons_prefix_cons] at h
        have hw := @ih ⟨c.offset + y.utf8Size, cs⟩ (fun hw => h ⟨rfl, hw⟩)
        simpa [word?, char?, hrest] using hw
      · simp [word?, char?, hrest, hxy]

/-! ## Repeating -/

/-- A limit beyond the length of the text does not matter to a step that consumes. -/
theorem repeatStep_eq_of_lt {step : Cursor → Attempts → Outcome}
    (hless : ∀ c a pairs next a', step c a = .matched pairs next a' →
      next.rest.length < c.rest.length) {limit limit' : Nat} {c : Cursor} (a : Attempts)
    (h : c.rest.length < limit) (h' : c.rest.length < limit') :
    repeatStep step limit c a = repeatStep step limit' c a := by
  induction limit generalizing limit' c a with
  | zero => exact absurd h (Nat.not_lt_zero _)
  | succ limit ih =>
    obtain ⟨limit', rfl⟩ := Nat.exists_eq_add_one_of_ne_zero (Nat.ne_zero_of_lt h')
    rw [repeatStep, repeatStep]
    split
    · next ps mid b hmid =>
      have := hless _ _ _ _ _ hmid
      exact congrArg _ (ih b (by omega) (by omega))
    · rfl
    · rfl

/-! ## Taking and refusing -/

/-- The pattern matches where the text `cs` begins. The next part of a sequence begins where `left`
does, and the pairs made have the property. -/
def Pattern.Takes (p : Pattern) (atomic : Bool) (cs left : List Char) (made : List Pair → Prop) :
    Prop :=
  ∀ c a, c.rest = cs → ∃ pairs next a', p.run Rule.outcome atomic c a = .matched pairs next a' ∧
    afterBlanks atomic next.rest = left ∧ made pairs

/-- The pattern does not match where the text `cs` begins. -/
def Pattern.Refuses (p : Pattern) (atomic : Bool) (cs : List Char) : Prop :=
  ∀ c a, c.rest = cs → ∃ a', p.run Rule.outcome atomic c a = .failed a'

/-- Nothing is made. -/
def Nothing (pairs : List Pair) : Prop := pairs = []

/-- Pairs of one kind, and after them pairs of another. -/
def Joined (made made' : List Pair → Prop) (pairs : List Pair) : Prop :=
  ∃ ps qs, pairs = ps ++ qs ∧ made ps ∧ made' qs

namespace Pattern

variable {p q : Pattern} {r : Rule} {atomic : Bool} {cs mid left : List Char}
  {made made' made'' : List Pair → Prop}

theorem Takes.mono (h : p.Takes atomic cs left made) (hmade : ∀ pairs, made pairs → made' pairs) :
    p.Takes atomic cs left made' := by
  intro c a hc
  obtain ⟨pairs, next, a', hrun, hnext, hpairs⟩ := h c a hc
  exact ⟨pairs, next, a', hrun, hnext, hmade pairs hpairs⟩

/-! ### Characters and words -/

theorem takes_char {accepts : Char → Bool} {x : Char} (h : accepts x = true) (atomic : Bool)
    (cs : List Char) : (char accepts).Takes atomic (x :: cs) (afterBlanks atomic cs) Nothing := by
  intro c a hc
  refine ⟨[], ⟨c.offset + x.utf8Size, cs⟩, a, ?_, rfl, rfl⟩
  simp [run, Cursor.char?, hc, h]

theorem refuses_char {accepts : Char → Bool} (h : ∀ x ∈ cs.head?, accepts x = false) :
    (char accepts).Refuses atomic cs := by
  intro c a hc
  refine ⟨a, ?_⟩
  cases cs with
  | nil => simp [run, Cursor.char?, hc]
  | cons x cs => simp [run, Cursor.char?, hc, h x rfl]

theorem takes_word (w : List Char) (atomic : Bool) (cs : List Char) :
    (word w).Takes atomic (w ++ cs) (afterBlanks atomic cs) Nothing := by
  intro c a hc
  obtain ⟨offset', h⟩ := Cursor.word?_append hc
  exact ⟨[], ⟨offset', cs⟩, a, by rw [run, h], rfl, rfl⟩

/-- What stands directly after a word is left as it is, unless blanks do. -/
theorem takes_text (s : String) (h : Solid cs) :
    (text s).Takes false (s.toList ++ cs) cs Nothing := by
  have htakes := takes_word s.toList false cs
  rwa [h.afterBlanks_eq] at htakes

theorem refuses_word {w : List Char} (h : ¬ w <+: cs) : (word w).Refuses atomic cs := by
  intro c a hc
  exact ⟨a, by rw [run, Cursor.word?_eq_none (hc ▸ h)]⟩

theorem takes_finish : finish.Takes false [] [] Nothing := by
  intro c a hc
  exact ⟨[], c, a, by simp [run, hc], by rw [hc]; rfl, rfl⟩

/-! ### Sequences and choices -/

theorem Takes.seq (hp : p.Takes atomic cs mid made) (hq : q.Takes atomic mid left made')
    (hmade : ∀ ps qs, made ps → made' qs → made'' (ps ++ qs)) :
    (seq p q).Takes atomic cs left made'' := by
  intro c a hc
  obtain ⟨ps, next, b, hrun, rfl, hps⟩ := hp c a hc
  obtain ⟨qs, last, a', hrun', hlast, hqs⟩ := hq (next.onward atomic) b (next.rest_onward atomic)
  refine ⟨ps ++ qs, last, a', ?_, hlast, hmade ps qs hps hqs⟩
  rw [run_seq, hrun]
  dsimp only
  rw [hrun']
  rfl

theorem Takes.append (hp : p.Takes atomic cs mid made) (hq : q.Takes atomic mid left made') :
    (Pattern.seq p q).Takes atomic cs left (Joined made made') :=
  hp.seq hq fun ps qs hps hqs => ⟨ps, qs, rfl, hps, hqs⟩

/-- A sequence whose first part makes nothing makes what its second part does. -/
theorem Takes.before (hp : p.Takes atomic cs mid Nothing) (hq : q.Takes atomic mid left made) :
    (Pattern.seq p q).Takes atomic cs left made :=
  hp.seq hq fun ps qs hps hqs => by rw [hps]; exact hqs

/-- A sequence whose second part makes nothing makes what its first part does. -/
theorem Takes.after (hp : p.Takes atomic cs mid made) (hq : q.Takes atomic mid left Nothing) :
    (Pattern.seq p q).Takes atomic cs left made :=
  hp.seq hq fun ps qs hps hqs => by rw [hqs, List.append_nil]; exact hps

/-- What is taken at the beginning of a text after blanks is matched from its start. -/
theorem Takes.from_start (hp : p.Takes false (afterBlanks false cs) left made) (a : Attempts) :
    ∃ pairs next a', (Pattern.seq .start p).run Rule.outcome false (Cursor.ofText cs) a =
      .matched pairs next a' ∧ made pairs := by
  obtain ⟨pairs, next, a', hrun, -, hpairs⟩ :=
    hp ((Cursor.ofText cs).onward false) a (Cursor.rest_onward false _)
  refine ⟨pairs, next, a', ?_, hpairs⟩
  rw [run_seq, show start.run Rule.outcome false (Cursor.ofText cs) a = .matched [] _ a from rfl]
  dsimp only
  rw [hrun]
  rfl

theorem Refuses.seq (hp : p.Refuses atomic cs) (q : Pattern) : (seq p q).Refuses atomic cs := by
  intro c a hc
  obtain ⟨a', hrun⟩ := hp c a hc
  exact ⟨a', by rw [run_seq, hrun]⟩

theorem Takes.seq_refuses (hp : p.Takes atomic cs mid made) (hq : q.Refuses atomic mid) :
    (Pattern.seq p q).Refuses atomic cs := by
  intro c a hc
  obtain ⟨ps, next, b, hrun, rfl, hps⟩ := hp c a hc
  obtain ⟨a', hrun'⟩ := hq (next.onward atomic) b (next.rest_onward atomic)
  refine ⟨a', ?_⟩
  rw [run_seq, hrun]
  dsimp only
  rw [hrun']
  rfl

theorem Takes.choice (hp : p.Takes atomic cs left made) (q : Pattern) :
    (choice p q).Takes atomic cs left made := by
  intro c a hc
  obtain ⟨ps, next, a', hrun, hnext, hps⟩ := hp c a hc
  exact ⟨ps, next, a', by rw [run, hrun], hnext, hps⟩

theorem Refuses.choice_takes (hp : p.Refuses atomic cs) (hq : q.Takes atomic cs left made) :
    (choice p q).Takes atomic cs left made := by
  intro c a hc
  obtain ⟨b, hrun⟩ := hp c a hc
  obtain ⟨qs, next, a', hrun', hnext, hqs⟩ := hq c b hc
  exact ⟨qs, next, a', by rw [run, hrun]; exact hrun', hnext, hqs⟩

theorem Refuses.choice (hp : p.Refuses atomic cs) (hq : q.Refuses atomic cs) :
    (choice p q).Refuses atomic cs := by
  intro c a hc
  obtain ⟨b, hrun⟩ := hp c a hc
  obtain ⟨a', hrun'⟩ := hq c b hc
  exact ⟨a', by rw [run, hrun]; exact hrun'⟩

theorem Takes.maybe (hp : p.Takes atomic cs left made) : (maybe p).Takes atomic cs left made := by
  intro c a hc
  obtain ⟨ps, next, a', hrun, hnext, hps⟩ := hp c a hc
  exact ⟨ps, next, a', by rw [run, hrun], hnext, hps⟩

theorem Refuses.maybe (hp : p.Refuses atomic cs) :
    (maybe p).Takes atomic cs (afterBlanks atomic cs) Nothing := by
  intro c a hc
  obtain ⟨a', hrun⟩ := hp c a hc
  exact ⟨[], c, a', by rw [run, hrun], by rw [hc], rfl⟩

theorem Takes.unless (hp : p.Takes atomic cs left made) : (Pattern.unless p).Refuses atomic cs := by
  intro c a hc
  obtain ⟨ps, next, a', hrun, -, -⟩ := hp c a hc
  exact ⟨a, by rw [run, hrun]⟩

theorem Refuses.unless (hp : p.Refuses atomic cs) :
    (Pattern.unless p).Takes atomic cs (afterBlanks atomic cs) Nothing := by
  intro c a hc
  obtain ⟨a', hrun⟩ := hp c a hc
  exact ⟨[], c, a, by rw [run, hrun], by rw [hc], rfl⟩

/-! ### Repetitions -/

theorem Refuses.many (hp : p.Refuses atomic cs) :
    (many p).Takes atomic cs (afterBlanks atomic cs) Nothing := by
  intro c a hc
  obtain ⟨a', hrun⟩ := hp c a hc
  exact ⟨[], c, a', by rw [run_many, hrun], by rw [hc], rfl⟩

/-- A repetition goes round once and then again. -/
theorem Takes.many (hleast : 0 < p.least) (hp : p.Takes atomic cs mid made)
    (hmore : (Pattern.many p).Takes atomic mid left made')
    (hmade : ∀ ps qs, made ps → made' qs → made'' (ps ++ qs)) :
    (Pattern.many p).Takes atomic cs left made'' := by
  have hless : ∀ (c : Cursor) a pairs next a', p.run Rule.outcome atomic (c.onward atomic) a =
      .matched pairs next a' → next.rest.length < c.rest.length :=
    fun _ _ _ _ _ hrun => Rule.consumes_outcome.lt_of_round hleast hrun
  intro c a hc
  obtain ⟨ps, next, b, hrun, rfl, hps⟩ := hp c a hc
  obtain ⟨qs, last, a', hrun', hlast, hqs⟩ := hmore (next.onward atomic) b (next.rest_onward atomic)
  rw [run_many, hrun]
  rcases run_many_eq_matched hrun' with ⟨qs', mid, b', rs, hround, hrest, rfl⟩ | ⟨hround, rfl, rfl⟩
  · refine ⟨ps ++ (qs' ++ rs), last, a', ?_, hlast, hmade _ _ hps hqs⟩
    have hmid := hless _ _ _ _ _ hround
    dsimp only
    rw [repeatStep, hround]
    dsimp only
    rw [repeatStep_eq_of_lt hless b' hmid (Nat.lt_succ_self _), hrest]
    rfl
  · refine ⟨ps ++ [], next, a', ?_, ?_, hmade _ _ hps hqs⟩
    · dsimp only
      rw [repeatStep, hround]
      rfl
    · rw [← hlast, Cursor.rest_onward, afterBlanks_afterBlanks]

/-- A repetition goes round once and ends. -/
theorem Takes.once (hleast : 0 < p.least) (hp : p.Takes atomic cs mid made)
    (hmore : (Pattern.many p).Takes atomic mid left Nothing) :
    (Pattern.many p).Takes atomic cs left made :=
  hp.many hleast hmore fun ps qs hps hqs => by rw [hqs, List.append_nil]; exact hps

/-! ### Rules -/

/-- A rule refuses what its body refuses. -/
theorem Refuses.rule (h : r.body.Refuses (atomic || r.isAtomic) cs) :
    (rule r).Refuses atomic cs := by
  intro c a hc
  obtain ⟨a', hrun⟩ := h c a hc
  rw [run, Rule.outcome_eq, hrun]
  dsimp only
  split <;> exact ⟨_, rfl⟩

/-- A rule inside an atomic one stands for its body. -/
theorem Takes.inside (h : r.body.Takes true cs left made) : (rule r).Takes true cs left made := by
  intro c a hc
  obtain ⟨ps, next, a', hrun, hnext, hps⟩ := h c a hc
  exact ⟨ps, next, a', by rw [run, Rule.outcome_eq, Bool.true_or, hrun]; rfl, hnext, hps⟩

/-- A silent rule stands for its body. -/
theorem Takes.silent (hsilent : r.isSilent = true) (hatomic : r.isAtomic = false)
    (h : r.body.Takes false cs left made) : (rule r).Takes false cs left made := by
  intro c a hc
  obtain ⟨ps, next, a', hrun, hnext, hps⟩ := h c a hc
  refine ⟨ps, next, a', ?_, hnext, hps⟩
  rw [run, Rule.outcome_eq, hatomic, hsilent, Bool.or_false, hrun]
  rfl

/-- A rule makes a pair of what its body makes. -/
theorem Takes.rule (hsilent : r.isSilent = false) (hatomic : r.isAtomic = false)
    (h : r.body.Takes false cs left made)
    (hmade : ∀ span text inner, made inner → made' [.mk r span text inner]) :
    (Pattern.rule r).Takes false cs left made' := by
  intro c a hc
  obtain ⟨ps, next, a', hrun, hnext, hps⟩ := h c a hc
  exact ⟨_, next, a', Rule.outcome_matched hsilent hatomic hrun, hnext, hmade _ _ _ hps⟩

/-- The only pair made is one of the rule with the text. -/
def Token (r : Rule) (w : List Char) (pairs : List Pair) : Prop :=
  ∃ span inner, pairs = [.mk r span w inner]

/-- An atomic rule makes a pair that has the text it took. -/
theorem Takes.token {w : List Char} (hsilent : r.isSilent = false) (hatomic : r.isAtomic = true)
    (h : r.body.Takes true (w ++ cs) cs Nothing) :
    (Pattern.rule r).Takes false (w ++ cs) (afterBlanks false cs) (Token r w) := by
  intro c a hc
  obtain ⟨ps, next, a', hrun, hnext, -⟩ := h c a hc
  have hrest : next.rest = cs := hnext
  have htext : c.upTo next = w := by simp [Cursor.upTo, hc, hrest]
  refine ⟨[.mk r ⟨c.offset, next.offset⟩ w ps], next, a', ?_, by rw [hrest], _, _, rfl⟩
  rw [← htext]
  exact Rule.outcome_matched hsilent hatomic hrun

/-- What a rule makes where it takes a text. -/
theorem Takes.made_of_outcome {c next : Cursor} {a b : Attempts} {pairs : List Pair}
    (htakes : (Pattern.rule r).Takes false cs left made) (hc : c.rest = cs)
    (h : r.outcome false c a = .matched pairs next b) : made pairs := by
  obtain ⟨ps, mid, b', hrun, -, hmade⟩ := htakes c a hc
  obtain ⟨rfl, -, -⟩ := Outcome.matched.inj (h.symm.trans hrun)
  exact hmade

theorem Refuses.not_outcome {c next : Cursor} {a b : Attempts} {pairs : List Pair}
    (hrefuses : (Pattern.rule r).Refuses false cs) (hc : c.rest = cs) :
    r.outcome false c a ≠ .matched pairs next b := by
  obtain ⟨b', hrun⟩ := hrefuses c a hc
  intro h
  exact nomatch h.symm.trans hrun

end Pattern

end TraceTree

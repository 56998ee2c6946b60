import TraceTree.Proofs.Grammar.Derivation

set_option autoImplicit false

/-! # Every text is matched or refused

Matching follows the rules down to a given depth and repeats a pattern a given number of times at
most. Neither bound is ever met. A repetition consumes a character each time it goes round, and a
rule that is entered again before a character was consumed has a lower rank, so sixteen rules for
each character that is left are deep enough (`Rule.run_ne_exhausted`). This gives the rules a
meaning without a depth, `Rule.outcome`, which is the meaning of their bodies under itself
(`Rule.outcome_eq`). -/

namespace TraceTree

/-! ## What a match consumes -/

/-- A number of characters that every match of a rule consumes. -/
def Rule.least : Rule → Nat
  | endOfInput | program | parameters => 0
  | _ => 1

/-- A number of characters that every match of a pattern consumes. -/
def Pattern.least : Pattern → Nat
  | .start | .finish | .maybe _ | .many _ | .unless _ => 0
  | .char _ => 1
  | .word chars => chars.length
  | .rule r => r.least
  | .seq first second => first.least + second.least
  | .choice first second => min first.least second.least

theorem Rule.least_le_body (r : Rule) : r.least ≤ r.body.least := by
  cases r <;> decide

/-- A match of a rule leaves no more than the least number of characters allows. -/
def Call.Consumes (call : Call) : Prop :=
  ∀ r atomic c a pairs next a', call r atomic c a = .matched pairs next a' →
    next.rest.length + r.least ≤ c.rest.length

theorem Cursor.length_skipFrom_le (inComment : Bool) (offset : Nat) (cs : List Char) :
    (skipFrom inComment offset cs).rest.length ≤ cs.length := by
  induction cs generalizing inComment offset with
  | nil => exact Nat.le_refl _
  | cons c cs ih =>
    simp only [skipFrom]
    split
    · exact Nat.le_succ_of_le (ih _ _)
    · split
      · exact Nat.le_succ_of_le (ih _ _)
      · split
        · exact Nat.le_succ_of_le (ih _ _)
        · exact Nat.le_refl _

theorem Cursor.length_skip_le (c : Cursor) : c.skip.rest.length ≤ c.rest.length :=
  length_skipFrom_le _ _ _

theorem Cursor.length_onward_le (atomic : Bool) (c : Cursor) :
    (c.onward atomic).rest.length ≤ c.rest.length := by
  cases atomic with
  | true => exact Nat.le_refl _
  | false => exact c.length_skip_le

theorem Cursor.length_of_char? {accepts : Char → Bool} {c next : Cursor}
    (h : c.char? accepts = some next) : next.rest.length + 1 = c.rest.length := by
  unfold char? at h
  split at h
  · cases h
  · next head tail hrest =>
    split at h
    · rw [← Option.some.inj h, hrest]
      rfl
    · cases h

theorem Cursor.length_of_word? {w : List Char} {c next : Cursor} (h : c.word? w = some next) :
    next.rest.length + w.length = c.rest.length := by
  induction w generalizing c with
  | nil => rw [← Option.some.inj h]; rfl
  | cons x w ih =>
    obtain ⟨mid, hmid, hnext⟩ := Option.bind_eq_some_iff.mp h
    rw [← length_of_char? hmid, ← ih hnext]
    rfl

section

variable {call : Call} {atomic : Bool} {c next : Cursor} {a a' : Attempts} {pairs : List Pair}

/-- A match of a pattern leaves no more than its least number of characters allows. -/
theorem Call.Consumes.run (hcall : call.Consumes) {p : Pattern}
    (h : p.run call atomic c a = .matched pairs next a') :
    next.rest.length + p.least ≤ c.rest.length := by
  replace h := Pattern.derives_of_run h
  induction h with
  | start | finish | absent | never | missed => exact Nat.le_refl _
  | char passed => exact Nat.le_of_eq (Cursor.length_of_char? passed)
  | word passed => exact Nat.le_of_eq (Cursor.length_of_word? passed)
  | rule matched => exact hcall _ _ _ _ _ _ _ matched
  | @seq p q c mid next _ _ _ _ ihp ihq =>
    have hskip := mid.length_onward_le atomic
    simp only [Pattern.least]
    omega
  | left _ ih => exact Nat.le_trans (Nat.add_le_add_left (Nat.min_le_left _ _) _) ih
  | right _ ih => exact Nat.le_trans (Nat.add_le_add_left (Nat.min_le_right _ _) _) ih
  | once _ ih | round _ ih => exact Nat.le_of_add_right_le ih
  | @again p c mid next _ _ _ _ ihrounds ih =>
    have hskip := mid.length_onward_le atomic
    simp only [Pattern.least] at ihrounds ⊢
    omega

/-- A round of a repetition leaves less. -/
theorem Call.Consumes.lt_of_round (hcall : call.Consumes) {p : Pattern} (hleast : 0 < p.least)
    (h : p.run call atomic (c.onward atomic) a = .matched pairs next a') :
    next.rest.length < c.rest.length := by
  have hround := hcall.run h
  have hskip := c.length_onward_le atomic
  omega

/-- **Rules consume** at every depth. -/
theorem Rule.consumes_run (depth : Nat) : Call.Consumes (Rule.run depth) := by
  induction depth with
  | zero => exact fun _ _ _ _ _ _ _ h => nomatch h
  | succ depth ih =>
    intro r atomic c a pairs next a' h
    obtain ⟨inner, hbody, -⟩ := Rule.run_eq_matched h
    exact Nat.le_trans (Nat.add_le_add_left r.least_le_body _) (ih.run hbody)

end

/-! ## No bound is met -/

/-- The rules that can be entered before a pattern has consumed a character. -/
def Pattern.leads : Pattern → List Rule
  | .start | .finish | .char _ | .word _ => []
  | .rule r => [r]
  | .seq first second => first.leads ++ if first.least = 0 then second.leads else []
  | .choice first second => first.leads ++ second.leads
  | .maybe p | .many p | .unless p => p.leads

/-- Each repetition in a pattern consumes a character each time it goes round. -/
def Pattern.Advances : Pattern → Prop
  | .start | .finish | .char _ | .word _ | .rule _ => True
  | .seq first second | .choice first second => first.Advances ∧ second.Advances
  | .maybe p | .unless p => p.Advances
  | .many p => 0 < p.least ∧ p.Advances

theorem Rule.advances_body (r : Rule) : r.body.Advances := by
  cases r <;> simp [body, reserved, Pattern.Advances, Pattern.inOrder, Pattern.oneOf,
    Pattern.atLeastOnce, Pattern.text, Pattern.least, Rule.least]

/-- How many rules lie below a rule before a character is consumed. -/
def Rule.rank : Rule → Nat
  | program | statementInput | expressionInput => 7
  | statement => 6
  | expressionStatement => 5
  | expression => 4
  | operand => 3
  | primary | parameters => 2
  | identifier | functionLiteral | ifExpression | letStatement | returnStatement
  | prefixOperator | infixOperator | postfixOperator => 1
  | _ => 0

/-- A rule is entered before a character was consumed only from a rule of higher rank. -/
theorem Rule.rank_lt_of_mem_leads {r s : Rule} (h : s ∈ r.body.leads) : s.rank < r.rank := by
  have hall : ∀ s ∈ r.body.leads, s.rank < r.rank := by cases r <;> decide
  exact hall s h

theorem Rule.rank_lt (r : Rule) : r.rank < 16 := by
  cases r <;> decide

theorem Outcome.matched_ne_exhausted {pairs : List Pair} {next : Cursor} {a : Attempts} :
    matched pairs next a ≠ .exhausted := by
  simp

theorem Outcome.failed_ne_exhausted {a : Attempts} : failed a ≠ .exhausted := by
  simp

theorem Outcome.prepend_eq_exhausted {pairs : List Pair} {o : Outcome} :
    o.prepend pairs = .exhausted ↔ o = .exhausted := by
  cases o <;> simp [prepend]

/-- A rule does not meet a bound where at most `size` characters are left. -/
def Call.Answers (call : Call) (atomic : Bool) (size : Nat) (r : Rule) : Prop :=
  ∀ c a, c.rest.length ≤ size → call r atomic c a ≠ .exhausted

section

variable {call : Call} {atomic : Bool} {size : Nat}

theorem repeatStep_ne_exhausted {step : Cursor → Attempts → Outcome}
    (hstep : ∀ c a, c.rest.length ≤ size → step c a ≠ .exhausted)
    (hless : ∀ c a pairs next a', step c a = .matched pairs next a' →
      next.rest.length < c.rest.length) {limit : Nat} {c : Cursor} (a : Attempts)
    (hsize : c.rest.length ≤ size) (hlimit : c.rest.length < limit) :
    repeatStep step limit c a ≠ .exhausted := by
  induction limit generalizing c a with
  | zero => exact absurd hlimit (Nat.not_lt_zero _)
  | succ limit ih =>
    rw [repeatStep]
    split
    · next ps mid b hmid =>
      have hmid := hless _ _ _ _ _ hmid
      rw [Ne, Outcome.prepend_eq_exhausted]
      exact ih b (by omega) (by omega)
    · exact Outcome.matched_ne_exhausted
    · next h => exact absurd h (hstep c a hsize)

/-- A pattern meets no bound if no rule does that it can enter, the rules that it can enter at once
where it begins and all rules further on. -/
theorem Call.Consumes.run_ne_exhausted (hcall : call.Consumes) {p : Pattern} (hp : p.Advances)
    (hleads : ∀ r ∈ p.leads, call.Answers atomic size r)
    (hlater : ∀ r, ∀ m < size, call.Answers atomic m r) {c : Cursor} (a : Attempts)
    (hc : c.rest.length ≤ size) : p.run call atomic c a ≠ .exhausted := by
  induction p generalizing size c a with
  | start | finish | char _ | word _ =>
    simp only [Pattern.run]
    split
    · exact Outcome.matched_ne_exhausted
    · exact Outcome.failed_ne_exhausted
  | rule r => exact hleads r (List.mem_singleton_self r) c a hc
  | seq p q ihp ihq =>
    rw [Pattern.run_seq]
    split
    · next ps mid b hmid =>
      rw [Ne, Outcome.prepend_eq_exhausted]
      have hless := hcall.run hmid
      have hskip := mid.length_onward_le atomic
      by_cases hleast : p.least = 0
      · refine ihq hp.2 (fun r hr => hleads r ?_) hlater b (by omega)
        exact List.mem_append_right _ (by rwa [if_pos hleast])
      · exact ihq hp.2 (fun r _ => hlater r (size - 1) (by omega))
          (fun r m hm => hlater r m (by omega)) b (by omega)
    · exact ihp hp.1 (fun r hr => hleads r (List.mem_append_left _ hr)) hlater a hc
  | choice p q ihp ihq =>
    rw [Pattern.run]
    split
    · next b _ => exact ihq hp.2 (fun r hr => hleads r (List.mem_append_right _ hr)) hlater b hc
    · exact ihp hp.1 (fun r hr => hleads r (List.mem_append_left _ hr)) hlater a hc
  | maybe p ih =>
    rw [Pattern.run]
    split
    · exact Outcome.matched_ne_exhausted
    · exact ih hp hleads hlater a hc
  | many p ih =>
    have hround : ∀ c a, c.rest.length ≤ size → p.run call atomic c a ≠ .exhausted :=
      fun c a hc => ih hp.2 hleads hlater a hc
    rw [Pattern.run_many]
    split
    · next ps mid b hmid =>
      rw [Ne, Outcome.prepend_eq_exhausted]
      have hless := hcall.run hmid
      have hmid : mid.rest.length ≤ size := by omega
      exact repeatStep_ne_exhausted
        (fun d b hd => hround _ b (Nat.le_trans (d.length_onward_le atomic) hd))
        (fun _ _ _ _ _ h => hcall.lt_of_round hp.1 h) b hmid (Nat.lt_succ_self _)
    · exact Outcome.matched_ne_exhausted
    · next h => exact absurd h (hround c a hc)
  | «unless» p ih =>
    rw [Pattern.run]
    split
    · exact Outcome.failed_ne_exhausted
    · exact Outcome.matched_ne_exhausted
    · next h => exact absurd h (ih hp hleads hlater a hc)

/-- **The bounds are not met** where the depth is sixteen rules for each character that is left and
one more for each rank. -/
theorem Rule.run_ne_exhausted {depth : Nat} {r : Rule} {c : Cursor} (a : Attempts)
    (h : 16 * c.rest.length + r.rank < depth) : Rule.run depth r atomic c a ≠ .exhausted := by
  induction depth generalizing r atomic c a with
  | zero => exact absurd h (Nat.not_lt_zero _)
  | succ depth ih =>
    have hleads : ∀ s ∈ r.body.leads,
        Call.Answers (Rule.run depth) (atomic || r.isAtomic) c.rest.length s := by
      intro s hs d b hd
      have := rank_lt_of_mem_leads hs
      exact ih b (by omega)
    have hlater : ∀ s, ∀ m < c.rest.length,
        Call.Answers (Rule.run depth) (atomic || r.isAtomic) m s := by
      intro s m hm d b hd
      have := s.rank_lt
      exact ih b (by omega)
    have hbody := (Rule.consumes_run depth).run_ne_exhausted r.advances_body hleads hlater a
      (Nat.le_refl _)
    rw [Rule.run]
    split
    · split <;> exact Outcome.matched_ne_exhausted
    · split <;> exact Outcome.failed_ne_exhausted
    · next hexhausted => exact absurd hexhausted hbody

end

/-! ## A meaning without a depth -/

/-- A meaning of the rules that gives the same answer wherever another one gives one. -/
def Call.Extends (call call' : Call) : Prop :=
  ∀ r atomic c a, call r atomic c a ≠ .exhausted → call' r atomic c a = call r atomic c a

section

variable {call call' : Call} {atomic : Bool}

theorem repeatStep_congr {step step' : Cursor → Attempts → Outcome}
    (hstep : ∀ c a, step c a ≠ .exhausted → step' c a = step c a) {limit : Nat} {c : Cursor}
    {a : Attempts} (h : repeatStep step limit c a ≠ .exhausted) :
    repeatStep step' limit c a = repeatStep step limit c a := by
  induction limit generalizing c a with
  | zero => rfl
  | succ limit ih =>
    have hfirst : step c a ≠ .exhausted := by
      intro hexhausted
      rw [repeatStep, hexhausted] at h
      exact h rfl
    rw [repeatStep, repeatStep, hstep c a hfirst]
    rw [repeatStep] at h
    split
    · next hmid =>
      rw [hmid] at h
      rw [ih (mt Outcome.prepend_eq_exhausted.mpr h)]
    · rfl
    · rfl

theorem Call.Extends.run (hcall : call.Extends call') {p : Pattern} {c : Cursor} {a : Attempts}
    (h : p.run call atomic c a ≠ .exhausted) :
    p.run call' atomic c a = p.run call atomic c a := by
  induction p generalizing c a with
  | start | finish | char _ | word _ => rfl
  | rule r => exact hcall r atomic c a h
  | seq p q ihp ihq =>
    have hp : p.run call atomic c a ≠ .exhausted := fun hp => h (by rw [Pattern.run, hp])
    rw [Pattern.run_seq] at h ⊢
    rw [Pattern.run_seq, ihp hp]
    split at h
    · rw [ihq (mt Outcome.prepend_eq_exhausted.mpr h)]
    · rfl
  | choice p q ihp ihq =>
    have hp : p.run call atomic c a ≠ .exhausted := fun hp => h (by rw [Pattern.run, hp])
    rw [Pattern.run] at h ⊢
    rw [Pattern.run, ihp hp]
    split at h
    · rw [ihq h]
    · rfl
  | maybe p ih =>
    have hp : p.run call atomic c a ≠ .exhausted := fun hp => h (by rw [Pattern.run, hp])
    rw [Pattern.run, Pattern.run, ih hp]
  | many p ih =>
    have hp : p.run call atomic c a ≠ .exhausted := fun hp => h (by rw [Pattern.run, hp])
    rw [Pattern.run_many] at h ⊢
    rw [Pattern.run_many, ih hp]
    split at h
    · rw [repeatStep_congr (fun d b => ih) (mt Outcome.prepend_eq_exhausted.mpr h)]
    · rfl
    · rfl
  | «unless» p ih =>
    have hp : p.run call atomic c a ≠ .exhausted := fun hp => h (by rw [Pattern.run, hp])
    rw [Pattern.run, Pattern.run, ih hp]

end

theorem Call.Extends.trans {call call' call'' : Call} (h : call.Extends call')
    (h' : call'.Extends call'') : call.Extends call'' := by
  intro r atomic c a hne
  have hcall := h r atomic c a hne
  rw [← hcall]
  exact h' r atomic c a (by rwa [hcall])

/-- More depth gives the same answer. -/
theorem Rule.extends_run_succ (depth : Nat) :
    Call.Extends (Rule.run depth) (Rule.run (depth + 1)) := by
  induction depth with
  | zero => exact fun _ _ _ _ h => absurd rfl h
  | succ depth ih =>
    intro r atomic c a h
    have hbody : r.body.run (Rule.run depth) (atomic || r.isAtomic) c a ≠ .exhausted :=
      fun hbody => h (by rw [Rule.run, hbody])
    rw [Rule.run, ih.run hbody]
    rfl

theorem Rule.extends_run {depth depth' : Nat} (h : depth ≤ depth') :
    Call.Extends (Rule.run depth) (Rule.run depth') := by
  induction h with
  | refl => exact fun _ _ _ _ _ => rfl
  | step _ ih => exact ih.trans (Rule.extends_run_succ _)

/-- What comes of matching a rule at a place, with as much depth as it takes. -/
def Rule.outcome (r : Rule) (atomic : Bool) (c : Cursor) (a : Attempts) : Outcome :=
  Rule.run (Rule.depthFor c.rest) r atomic c a

theorem Rule.recognise_eq (r : Rule) (text : List Char) :
    r.recognise text = r.outcome false (Cursor.ofText text) Attempts.empty :=
  rfl

theorem Rule.outcome_ne_exhausted (r : Rule) (atomic : Bool) (c : Cursor) (a : Attempts) :
    r.outcome atomic c a ≠ .exhausted := by
  have := r.rank_lt
  exact Rule.run_ne_exhausted a (by unfold depthFor; omega)

/-- What comes of matching with some depth is what comes of it with enough. -/
theorem Rule.extends_outcome (depth : Nat) : Call.Extends (Rule.run depth) Rule.outcome := by
  intro r atomic c a h
  have hright := extends_run (Nat.le_max_right depth (depthFor c.rest)) r atomic c a
    (r.outcome_ne_exhausted atomic c a)
  rw [← extends_run (Nat.le_max_left depth (depthFor c.rest)) r atomic c a h, hright]
  rfl

/-- **A rule means what its body means,** where the rules in the body have their own meanings. -/
theorem Rule.outcome_eq (r : Rule) (atomic : Bool) (c : Cursor) (a : Attempts) :
    r.outcome atomic c a =
      match r.body.run Rule.outcome (atomic || r.isAtomic) c a with
      | .matched pairs next a' =>
        if atomic || r.isSilent then .matched pairs next a'
        else .matched [.mk r ⟨c.offset, next.offset⟩ (c.upTo next) pairs] next a'
      | .failed a' =>
        if atomic || r.isSilent then .failed a'
        else .failed (a'.record r c.offset (a.countAt c.offset))
      | .exhausted => .exhausted := by
  have hdepth : depthFor c.rest = 16 * c.rest.length + 15 + 1 := by unfold depthFor; omega
  have hne := r.outcome_ne_exhausted atomic c a
  rw [outcome, hdepth] at hne
  have hbody : r.body.run (Rule.run (16 * c.rest.length + 15)) (atomic || r.isAtomic) c a ≠
      .exhausted := fun hbody => hne (by rw [Rule.run, hbody])
  rw [outcome, hdepth, (extends_outcome _).run hbody]
  rfl

/-- A rule that is not silent makes one pair of what its body makes. -/
theorem Rule.outcome_matched {r : Rule} {atomic : Bool} {c next : Cursor} {a a' : Attempts}
    {pairs : List Pair} (hsilent : r.isSilent = false) (hatomic : r.isAtomic = atomic)
    (hbody : r.body.run Rule.outcome atomic c a = .matched pairs next a') :
    r.outcome false c a =
      .matched [.mk r ⟨c.offset, next.offset⟩ (c.upTo next) pairs] next a' := by
  rw [outcome_eq, hatomic, hsilent, Bool.false_or, hbody]
  rfl

theorem Rule.consumes_outcome : Call.Consumes Rule.outcome :=
  fun r atomic c a pairs next a' h => consumes_run _ r atomic c a pairs next a' h

/-- **No pattern meets a bound** under the meaning of the rules. -/
theorem Pattern.run_outcome_ne_exhausted {p : Pattern} (hp : p.Advances) (atomic : Bool)
    (c : Cursor) (a : Attempts) : p.run Rule.outcome atomic c a ≠ .exhausted :=
  Rule.consumes_outcome.run_ne_exhausted hp
    (fun r _ d b _ => r.outcome_ne_exhausted atomic d b)
    (fun r _ _ d b _ => r.outcome_ne_exhausted atomic d b) a (Nat.le_refl _)

end TraceTree

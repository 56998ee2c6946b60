import Mathlib.Data.Prod.Lex
import Mathlib.Logic.Relation
import Mathlib.Order.WellFounded
import TraceTree.Proofs.Grammar.Blanks

set_option autoImplicit false

/-! # Rules inside rules

While a rule is matched, others are entered (`Entry.Enters`): those that its pattern comes to, each
at the place and with the attempts that the parts before it have left. Entering a rule either leaves
fewer characters to be matched or leads to a rule of a lower rank, so no rule is entered inside
itself before a character was passed, and rules are not entered inside one another without end. A
pattern that is repeated passes a character each time. Together this is why matching comes to an end
on every text (`Rule.matching_ends`). -/

namespace TraceTree

deriving instance DecidableEq for Cursor, Attempts

/-- A rule that is to be matched at a place. -/
structure Entry where
  rule : Rule
  /-- Whether blanks count where the rule is mentioned. -/
  atomic : Bool
  place : Cursor
  attempts : Attempts
  deriving DecidableEq

/-- While the pattern is matched at a place, a rule is entered. -/
inductive Pattern.Enters (atomic : Bool) (e : Entry) : Pattern → Cursor → Attempts → Prop where
  | rule {r : Rule} {c : Cursor} {a : Attempts} (h : e = ⟨r, atomic, c, a⟩) :
      Enters atomic e (.rule r) c a
  | first {p q : Pattern} {c : Cursor} {a : Attempts} (h : Enters atomic e p c a) :
      Enters atomic e (.seq p q) c a
  | second {p q : Pattern} {c mid : Cursor} {a b : Attempts} {pairs : List Pair}
      (hp : p.run Rule.outcome atomic c a = .matched pairs mid b)
      (h : Enters atomic e q (mid.onward atomic) b) : Enters atomic e (.seq p q) c a
  | left {p q : Pattern} {c : Cursor} {a : Attempts} (h : Enters atomic e p c a) :
      Enters atomic e (.choice p q) c a
  | right {p q : Pattern} {c : Cursor} {a b : Attempts}
      (hp : p.run Rule.outcome atomic c a = .failed b) (h : Enters atomic e q c b) :
      Enters atomic e (.choice p q) c a
  | maybe {p : Pattern} {c : Cursor} {a : Attempts} (h : Enters atomic e p c a) :
      Enters atomic e (.maybe p) c a
  | many {p : Pattern} {c : Cursor} {a : Attempts} (h : Enters atomic e p c a) :
      Enters atomic e (.many p) c a
  | again {p : Pattern} {c mid : Cursor} {a b : Attempts} {pairs : List Pair}
      (hp : p.run Rule.outcome atomic c a = .matched pairs mid b)
      (h : Enters atomic e (.many p) (mid.onward atomic) b) : Enters atomic e (.many p) c a
  | unless {p : Pattern} {c : Cursor} {a : Attempts} (h : Enters atomic e p c a) :
      Enters atomic e (.unless p) c a

/-- While the first rule is matched, its body enters the second one. These are just the entries that
it asks for their outcome (`Entry.enters_iff`). -/
def Entry.Enters (e f : Entry) : Prop :=
  e.rule.body.Enters (e.atomic || e.rule.isAtomic) f e.place e.attempts

/-! ## Entering a rule is asking for its outcome -/

/-- The meaning of the rules, but for one entry, which has none. -/
def Entry.withheld (e : Entry) : Call := fun r atomic c a =>
  if e = ⟨r, atomic, c, a⟩ then .exhausted else r.outcome atomic c a

section

variable {atomic : Bool} {e f : Entry} {p : Pattern} {c : Cursor} {a : Attempts}

theorem Entry.extends_withheld (e : Entry) : Call.Extends e.withheld Rule.outcome := by
  intro r atomic c a h
  rw [withheld] at h ⊢
  split at h
  · exact absurd rfl h
  · next hne => rw [if_neg hne]

theorem Entry.consumes_withheld (e : Entry) : Call.Consumes e.withheld := by
  intro r atomic c a pairs next b h
  refine Rule.consumes_outcome r atomic c a pairs next b ?_
  rw [e.extends_withheld r atomic c a (by rw [h]; exact Outcome.matched_ne_exhausted), h]

/-- Without the entry a pattern comes to nothing, or to what it comes to with it. -/
theorem Pattern.run_withheld (e : Entry) (p : Pattern) (atomic : Bool) (c : Cursor) (a : Attempts) :
    p.run e.withheld atomic c a = .exhausted ∨
      p.run e.withheld atomic c a = p.run Rule.outcome atomic c a := by
  by_cases h : p.run e.withheld atomic c a = .exhausted
  · exact .inl h
  · exact .inr (e.extends_withheld.run h).symm

/-- The rounds that are left of a repetition come to nothing where the repetition itself would. -/
theorem Call.Consumes.repeatStep_eq_exhausted {call : Call} (hcall : call.Consumes)
    (hp : 0 < p.least) :
    repeatStep (fun d => p.run call atomic (d.onward atomic)) (c.rest.length + 1) c a =
        .exhausted ↔
      (Pattern.many p).run call atomic (c.onward atomic) a = .exhausted := by
  rw [repeatStep, Pattern.run_many]
  cases hrun : p.run call atomic (c.onward atomic) a with
  | matched pairs next b =>
    have hnext := hcall.lt_of_round hp hrun
    dsimp only
    rw [repeatStep_eq_of_lt (fun _ _ _ _ _ h => hcall.lt_of_round hp h) b hnext
      (Nat.lt_succ_self next.rest.length)]
  | failed b => simp
  | exhausted => rfl

theorem Pattern.Enters.run_withheld_eq (h : p.Enters atomic e c a) (hp : p.Advances) :
    p.run e.withheld atomic c a = .exhausted := by
  induction h with
  | rule h => rw [run, Entry.withheld, if_pos h]
  | first h ih => rw [run_seq, ih hp.1]
  | @second p q c mid a b pairs hfirst h ih =>
    rw [run_seq]
    rcases p.run_withheld e atomic c a with hnone | hsame
    · rw [hnone]
    · rw [hsame, hfirst]
      exact Outcome.prepend_eq_exhausted.mpr (ih hp.2)
  | left h ih => rw [run, ih hp.1]
  | @right p q c a b hfirst h ih =>
    rw [run]
    rcases p.run_withheld e atomic c a with hnone | hsame
    · rw [hnone]
    · rw [hsame, hfirst]
      exact ih hp.2
  | maybe h ih => rw [run, ih hp]
  | many h ih => rw [run_many, ih hp.2]
  | @again p c mid a b pairs hfirst h ih =>
    rw [run_many]
    rcases p.run_withheld e atomic c a with hnone | hsame
    · rw [hnone]
    · rw [hsame, hfirst]
      exact Outcome.prepend_eq_exhausted.mpr
        ((e.consumes_withheld.repeatStep_eq_exhausted hp.1).mpr (ih hp))
  | «unless» h ih => rw [run, ih hp]

theorem Pattern.enters_of_run_withheld (hp : p.Advances)
    (h : p.run e.withheld atomic c a = .exhausted) : p.Enters atomic e c a := by
  induction p generalizing c a with
  | start | finish | char _ | word _ =>
    simp only [run] at h
    split at h <;> cases h
  | rule r =>
    rw [run, Entry.withheld] at h
    split at h
    · next he => exact .rule he
    · exact absurd h (r.outcome_ne_exhausted atomic c a)
  | seq p q ihp ihq =>
    rw [run_seq] at h
    rcases p.run_withheld e atomic c a with hnone | hsame
    · exact .first (ihp hp.1 hnone)
    · rw [hsame] at h
      cases hfirst : p.run Rule.outcome atomic c a with
      | matched pairs mid b =>
        rw [hfirst] at h
        exact .second hfirst (ihq hp.2 (Outcome.prepend_eq_exhausted.mp h))
      | failed b => rw [hfirst] at h; cases h
      | exhausted => exact absurd hfirst (run_outcome_ne_exhausted hp.1 atomic c a)
  | choice p q ihp ihq =>
    rw [run] at h
    rcases p.run_withheld e atomic c a with hnone | hsame
    · exact .left (ihp hp.1 hnone)
    · rw [hsame] at h
      cases hfirst : p.run Rule.outcome atomic c a with
      | matched pairs mid b => rw [hfirst] at h; cases h
      | failed b =>
        rw [hfirst] at h
        exact .right hfirst (ihq hp.2 h)
      | exhausted => exact absurd hfirst (run_outcome_ne_exhausted hp.1 atomic c a)
  | maybe p ih =>
    rw [run] at h
    split at h
    · cases h
    · exact .maybe (ih hp h)
  | many p ih =>
    -- a later round begins where less is left
    induction hlength : c.rest.length using Nat.strong_induction_on generalizing c a with
    | _ length ihlength =>
      rw [run_many] at h
      rcases p.run_withheld e atomic c a with hnone | hsame
      · exact .many (ih hp.2 hnone)
      · cases hfirst : p.run Rule.outcome atomic c a with
        | matched pairs mid b =>
          rw [hsame, hfirst] at h
          have hmore := (e.consumes_withheld.repeatStep_eq_exhausted hp.1).mp
            (Outcome.prepend_eq_exhausted.mp h)
          have hless := Rule.consumes_outcome.run hfirst
          have honward := mid.length_onward_le atomic
          have hleast := hp.1
          exact .again hfirst (ihlength _ (by omega) hmore rfl)
        | failed b => rw [hsame, hfirst] at h; cases h
        | exhausted => exact absurd hfirst (run_outcome_ne_exhausted hp.2 atomic c a)
  | «unless» p ih =>
    rw [run] at h
    split at h
    · cases h
    · cases h
    · next hnone => exact .unless (ih hp hnone)

/-- **A rule is entered where it is asked for its outcome:** those entries without whose outcome
there would be none. -/
theorem Entry.enters_iff : e.Enters f ↔
    e.rule.body.run f.withheld (e.atomic || e.rule.isAtomic) e.place e.attempts = .exhausted :=
  ⟨fun h => h.run_withheld_eq e.rule.advances_body,
    Pattern.enters_of_run_withheld e.rule.advances_body⟩

instance (o : Outcome) : Decidable (o = .exhausted) :=
  match o with
  | .matched _ _ _ => isFalse Outcome.matched_ne_exhausted
  | .failed _ => isFalse Outcome.failed_ne_exhausted
  | .exhausted => isTrue rfl

instance : DecidableRel Entry.Enters := fun _ _ => decidable_of_iff _ Entry.enters_iff.symm

/-! ## Where rules are entered -/

/-- What a pattern enters lies further on, unless it is one of the rules that the pattern can begin
with. -/
theorem Pattern.Enters.lies (h : p.Enters atomic e c a) :
    c.LeadsTo e.place ∧ (e.rule ∈ p.leads ∨ e.place.rest.length < c.rest.length) := by
  induction h with
  | rule h =>
    subst h
    exact ⟨.refl _, .inl (List.mem_singleton_self _)⟩
  | first h ih => exact ⟨ih.1, ih.2.imp_left (List.mem_append_left _)⟩
  | @second p q c mid a b pairs hfirst h ih =>
    have hless := Rule.consumes_outcome.run hfirst
    have honward := mid.length_onward_le atomic
    refine ⟨(leadsTo_of_run hfirst).trans ((mid.leadsTo_onward atomic).trans ih.1), ?_⟩
    by_cases hleast : p.least = 0
    · refine ih.2.imp (fun hmem => List.mem_append_right _ ?_) (by omega)
      rwa [if_pos hleast]
    · have hleft := ih.1.length_le
      exact .inr (by omega)
  | left h ih => exact ⟨ih.1, ih.2.imp_left (List.mem_append_left _)⟩
  | right hfirst h ih => exact ⟨ih.1, ih.2.imp_left (List.mem_append_right _)⟩
  | maybe h ih => exact ih
  | many h ih => exact ih
  | @again p c mid a b pairs hfirst h ih =>
    have hless := Rule.consumes_outcome.run hfirst
    have honward := mid.length_onward_le atomic
    exact ⟨(leadsTo_of_run hfirst).trans ((mid.leadsTo_onward atomic).trans ih.1),
      ih.2.imp_right (by omega)⟩
  | «unless» h ih => exact ih

/-- What becomes less from a rule to those inside it: the characters that are left, or else the
rank. -/
def Entry.measure (e : Entry) : ℕ ×ₗ ℕ := toLex (e.place.rest.length, e.rule.rank)

/-- **Entering a rule leads onward,** or to a rule of a lower rank. -/
theorem Entry.Enters.descends (h : e.Enters f) :
    e.place.LeadsTo f.place ∧ f.measure < e.measure := by
  obtain ⟨hleads, hlies⟩ := Pattern.Enters.lies h
  refine ⟨hleads, Prod.Lex.toLex_lt_toLex.mpr ?_⟩
  have hleft := hleads.length_le
  rcases hlies with hmem | hless
  · have hrank := Rule.rank_lt_of_mem_leads hmem
    rcases Nat.lt_or_eq_of_le hleft with hless | hsame
    · exact .inl hless
    · exact .inr ⟨hsame, hrank⟩
  · exact .inl hless

/-- The same of a rule entered inside another one at any depth. -/
theorem Entry.descends_of_inside (h : Relation.TransGen Entry.Enters e f) :
    e.place.LeadsTo f.place ∧ f.measure < e.measure := by
  induction h with
  | single h => exact h.descends
  | tail _ h ih =>
    obtain ⟨hleads, hless⟩ := h.descends
    exact ⟨ih.1.trans hleads, hless.trans ih.2⟩

theorem Entry.wellFounded_enters : WellFounded fun f e : Entry => e.Enters f :=
  Subrelation.wf (fun h => h.descends.2) (InvImage.wf Entry.measure wellFounded_lt)

/-- A rule that is entered inside itself is entered further on. -/
theorem Entry.lt_of_inside (h : Relation.TransGen Entry.Enters e f) (hrule : f.rule = e.rule) :
    e.place.LeadsTo f.place ∧ e.place.offset < f.place.offset := by
  obtain ⟨hleads, hless⟩ := descends_of_inside h
  refine ⟨hleads, hleads.offset_add_le (n := 1) ?_⟩
  rcases Prod.Lex.toLex_lt_toLex.mp hless with hless | ⟨-, hrank⟩
  · exact hless
  · exact absurd hrank (by rw [hrule]; exact Nat.lt_irrefl _)

end

/-! ## Repetitions -/

/-- The patterns that are repeated in a pattern. -/
def Pattern.repeated : Pattern → List Pattern
  | .start | .finish | .char _ | .word _ | .rule _ => []
  | .seq first second | .choice first second => first.repeated ++ second.repeated
  | .maybe p | .unless p => p.repeated
  | .many p => p :: p.repeated

theorem Pattern.Advances.least_pos {p : Pattern} (h : p.Advances) :
    ∀ q ∈ p.repeated, 0 < q.least := by
  induction p with
  | start | finish | char _ | word _ | rule _ => nofun
  | seq p q ihp ihq | choice p q ihp ihq =>
    exact List.forall_mem_append.mpr ⟨ihp h.1, ihq h.2⟩
  | maybe p ih | «unless» p ih => exact ih h
  | many p ih => exact List.forall_mem_cons.mpr ⟨h.1, ih h.2⟩

/-- The repetitions of the grammar: those in the rules, and those of the blanks between the parts of
a sequence. -/
def Pattern.IsRepeated (p : Pattern) : Prop :=
  p ∈ blanks.repeated ∨ ∃ r : Rule, p ∈ r.body.repeated

theorem Pattern.IsRepeated.least_pos {p : Pattern} (h : p.IsRepeated) : 0 < p.least := by
  rcases h with h | ⟨r, h⟩
  · have hblanks : blanks.Advances := ⟨⟨Nat.zero_lt_one, trivial⟩, Nat.zero_lt_one, trivial,
      Nat.zero_lt_one, trivial⟩
    exact hblanks.least_pos p h
  · exact r.advances_body.least_pos p h

/-- **Matching comes to an end on every text.** Whatever the rule and the text, the bounds of the
depth and of the repetitions are not met, so that any greater depth gives the same outcome. Each
round of each repetition passes a byte at least, also where blanks and comments are passed, which is
done as the rules for them match. Rules are not entered inside one another without end, and a rule
that is entered inside itself, at any depth, is entered at a later place. -/
theorem Rule.matching_ends :
    (∀ (r : Rule) (text : List Char), r.recognise text ≠ .exhausted ∧
      ∀ depth ≥ Rule.depthFor text,
        Rule.run depth r false (Cursor.ofText text) Attempts.empty = r.recognise text) ∧
    (∀ p : Pattern, p.IsRepeated → ∀ atomic c a pairs next b,
      p.run Rule.outcome atomic c a = .matched pairs next b → c.offset < next.offset) ∧
    (∀ c a, Pattern.blanks.run Rule.outcome true c a = .matched [] c.skip a) ∧
    (WellFounded fun f e : Entry => e.Enters f) ∧
    ∀ e f : Entry, Relation.TransGen Entry.Enters e f → f.rule = e.rule →
      e.place.LeadsTo f.place ∧ e.place.offset < f.place.offset := by
  refine ⟨fun r text => ?_, ?_, Pattern.run_blanks, Entry.wellFounded_enters,
    fun e f => Entry.lt_of_inside⟩
  · have hends := r.outcome_ne_exhausted false (Cursor.ofText text) Attempts.empty
    exact ⟨hends, fun depth hdepth => extends_run hdepth r false _ _ hends⟩
  · intro p hp atomic c a pairs next b h
    have hless := Rule.consumes_outcome.run h
    have hleast := hp.least_pos
    have hpassed := (Pattern.leadsTo_of_run h).offset_add_le hless
    omega

/-- The expression in brackets is entered inside the expression that the brackets are, by way of an
operand, and further on. -/
theorem Rule.matching_ends_bracketed :
    let text := Cursor.ofText "(1)".toList
    let noted : List Rule := [.bang, .neg, .integer, .boolean, .kwIf, .kwFn, .identifier]
    let outer : Entry := ⟨.expression, false, text, .empty⟩
    let inner : Entry := ⟨.expression, false, ⟨1, "1)".toList⟩, ⟨0, noted⟩⟩
    Relation.TransGen Entry.Enters outer inner ∧
      outer.place.LeadsTo inner.place ∧ outer.place.offset < inner.place.offset := by
  intro text noted outer inner
  have hinside : Relation.TransGen Entry.Enters outer inner := by
    have hoperand : outer.Enters ⟨.operand, false, text, .empty⟩ := by decide
    have hprimary : Entry.Enters ⟨.operand, false, text, .empty⟩
        ⟨.primary, false, text, ⟨0, [.bang, .neg]⟩⟩ := by decide
    have hinner : Entry.Enters ⟨.primary, false, text, ⟨0, [.bang, .neg]⟩⟩ inner := by decide
    exact .tail (.tail (.single hoperand) hprimary) hinner
  obtain ⟨-, -, -, -, hlater⟩ := matching_ends
  exact ⟨hinside, hlater outer inner hinside rfl⟩

end TraceTree

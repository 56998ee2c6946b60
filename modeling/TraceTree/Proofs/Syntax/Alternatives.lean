import TraceTree.Proofs.Grammar.Expectation
import TraceTree.Proofs.Syntax.Settling

set_option autoImplicit false

/-! # How often an alternative is listed

What was expected where a text cannot be read is listed by labels, and some rules share one: the
operators between operands, those in front of an operand, and the statements. Each rule is listed once,
but its label as often as a rule with it is (`parseAt_expected`).

The operators come together. Where one of a kind is missing all of them are tried, and where one is
found an operand is tried further on, so that what was noted before is given up. Statements never come
together, because an expression that cannot be read stands for the statement that it begins. -/

namespace TraceTree

/-! ## Rules that come together -/

/-- The rules that are tried wherever a rule is: operators come with all of their kind. -/
def Rule.fellows (r : Rule) : List Rule :=
  if r ∈ prefixRules then prefixRules else if r ∈ infixRules then infixRules else [r]

/-- Each rule of a list is there with its fellows. -/
def Gathered (rs : List Rule) : Prop := ∀ r ∈ rs, ∀ s ∈ r.fellows, s ∈ rs

instance (rs : List Rule) : Decidable (Gathered rs) :=
  inferInstanceAs (Decidable (∀ r ∈ rs, ∀ s ∈ r.fellows, s ∈ rs))

theorem Gathered.append {rs ss : List Rule} (hr : Gathered rs) (hs : Gathered ss) :
    Gathered (rs ++ ss) := by
  intro r hmem s hfellow
  rw [List.mem_append] at hmem ⊢
  exact hmem.imp (fun h => hr r h s hfellow) fun h => hs r h s hfellow

theorem gathered_prefixRules : Gathered prefixRules := by decide

theorem gathered_infixRules : Gathered infixRules := by decide

theorem Rule.isSign_of_mem {r : Rule} (h : r ∈ prefixRules ++ infixRules) : r.IsSign := by
  simp only [prefixRules, infixRules, List.cons_append, List.nil_append, List.mem_cons,
    List.not_mem_nil, or_false] at h
  rcases h with rfl | rfl | rfl | rfl | rfl | rfl | rfl | rfl | rfl | rfl <;> exact ⟨rfl, rfl, rfl⟩

/-- The rules for which operators are tried one by one. -/
def operatorRules : List Rule := prefixRules ++ infixRules ++ [.prefixOperator, .infixOperator]

theorem Rule.gathered_singleton {r : Rule} (h : r ∉ operatorRules) : Gathered [r] := by
  simp only [operatorRules, List.mem_append, not_or] at h
  simp [Gathered, fellows, h.1.1, h.1.2]

/-! ## Attempts that are complete -/

namespace Attempts

/-- All rules that failed are there with their fellows. -/
def Whole (a : Attempts) : Prop := Gathered a.rules

/-- All rules that failed at an offset or further on are there with their fellows. -/
def WholeFrom (a : Attempts) (o : Nat) : Prop := a.Whole ∨ a.offset < o

variable {a b : Attempts} {r : Rule} {o o' : Nat}

theorem WholeFrom.mono (h : a.WholeFrom o) (ho : o ≤ o') : a.WholeFrom o' :=
  h.imp id fun hlt => Nat.lt_of_lt_of_le hlt ho

/-- A rule that is no operator adds itself to what was complete. -/
theorem Whole.record (ha : a.Whole) (hb : b.Whole) (hgrows : a.Grows b) (hr : r ∉ operatorRules)
    (o : Nat) : (b.record r o (a.countAt o)).Whole := by
  have hone := Rule.gathered_singleton hr
  rcases hgrows.record_cases r o with ⟨-, h⟩ | ⟨-, h⟩ | ⟨-, h⟩ <;> rw [h]
  · exact hb
  · exact ha.append hone
  · exact hone

/-- Operators that are missing complete what was noted before. -/
theorem WholeFrom.noteAll {rs : List Rule} (h : a.WholeFrom o) (hrs : Gathered (r :: rs)) :
    (a.noteAll (r :: rs) o).Whole := by
  rcases a.noteAll_cases r rs o with ⟨ho, heq⟩ | ⟨ho, heq⟩ | ⟨ho, heq⟩ <;> rw [heq]
  · exact h.resolve_right (by omega)
  · exact (h.resolve_right (by omega)).append hrs
  · exact hrs

end Attempts

open Attempts (Whole WholeFrom)

/-! ## Operators -/

section

variable {depth : Nat} {c : Cursor} {a : Attempts}

/-- A choice of all operators of a kind leaves attempts that are complete further on. -/
theorem Rule.whole_choice {r s : Rule} {rs : List Rule}
    (hbody : r.body = Pattern.oneOf (.rule s) (rs.map .rule)) (hsilent : r.isSilent = true)
    (hatomic : r.isAtomic = false) (hsigns : ∀ t ∈ s :: rs, t ∈ prefixRules ++ infixRules)
    (hrs : Gathered (s :: rs)) (ha : a.WholeFrom c.offset) :
    (Rule.run depth r false c a).Ends (fun next b => b.WholeFrom next.offset) Whole := by
  cases depth with
  | zero => trivial
  | succ depth =>
    have hchoice : (r.body.run (Rule.run depth) (false || r.isAtomic) c a).Ends
        (fun next b => b.WholeFrom next.offset) Whole := by
      rw [hbody, hatomic]
      refine (Pattern.ends_signs fun t ht => isSign_of_mem (hsigns t ht)).mono (fun next b hb => ?_)
        fun b hb => hb ▸ ha.noteAll hrs
      obtain ⟨hlt, rfl | hle⟩ := hb
      · exact ha.mono (Nat.le_of_lt hlt)
      · exact .inr (Nat.lt_of_le_of_lt hle hlt)
    exact ends_run hchoice (fun _ _ hb => hb) (by simp [hsilent])

theorem Rule.whole_prefixOperator (ha : a.WholeFrom c.offset) :
    (Rule.run depth prefixOperator false c a).Ends (fun next b => b.WholeFrom next.offset) Whole :=
  whole_choice rfl rfl rfl (show ∀ t ∈ prefixRules, _ by decide) gathered_prefixRules ha

theorem Rule.whole_infixOperator (ha : a.WholeFrom c.offset) :
    (Rule.run depth infixOperator false c a).Ends (fun next b => b.WholeFrom next.offset) Whole :=
  whole_choice rfl rfl rfl (show ∀ t ∈ infixRules, _ by decide) gathered_infixRules ha

end

/-! ## Rules with operators in them -/

/-- Down to a depth, every rule that is no operator keeps attempts complete, and an operand completes
them. -/
structure WholeDownTo (depth : Nat) : Prop where
  leaves : ∀ r ∉ operatorRules, ∀ c a, a.Whole → (Rule.run depth r false c a).Leaves Whole
  operand : ∀ c a, a.WholeFrom c.offset → (Rule.run depth .operand false c a).Leaves Whole

/-- Only an operand and an expression have operators in them. -/
theorem Rule.notMem_operatorRules {r s : Rule} (hs : s ∈ r.body.rules) (hr : r ∉ operatorRules)
    (hoperand : r ≠ .operand) (hexpression : r ≠ .expression) : s ∉ operatorRules := by
  have hall : ∀ s ∈ r.body.rules, s ∉ operatorRules := by
    cases r with
    | operand => exact absurd rfl hoperand
    | expression => exact absurd rfl hexpression
    | prefixOperator | infixOperator => exact absurd (by decide) hr
    | _ => decide
  exact hall s hs

namespace WholeDownTo

variable {depth : Nat} {c : Cursor} {a : Attempts}

/-- Of the operators in front of an operand the last one is missing. -/
theorem operandBody (h : WholeDownTo depth) (ha : a.WholeFrom c.offset) :
    (Rule.operand.body.run (Rule.run depth) false c a).Leaves Whole := by
  have honward : ∀ (d : Cursor) (b : Attempts), b.WholeFrom d.offset →
      b.WholeFrom (d.onward false).offset := fun d b hb =>
    hb.mono (d.leadsTo_onward false).offset_le
  have hall : ∀ r ∈ [Rule.primary, .postfixOperator], r ∉ operatorRules := by decide
  have hprefixes : ((Pattern.many (.rule .prefixOperator)).run (Rule.run depth) false c a).Leaves
      Whole :=
    Pattern.ends_many (fun d b => b.WholeFrom d.offset) (fun _ _ hb => Rule.whole_prefixOperator hb)
      honward ha
  exact Pattern.ends_seq hprefixes fun next b hb =>
    Pattern.leaves_run (fun r hr d b hb => h.leaves r (hall r hr) d b hb) hb

/-- After each operator an operand is tried. -/
theorem expressionBody (h : WholeDownTo depth) (ha : a.Whole) :
    (Rule.expression.body.run (Rule.run depth) false c a).Leaves Whole := by
  refine Pattern.ends_seq (h.operand c a (.inl ha)) fun next b hb => ?_
  refine Pattern.ends_many (fun _ => Whole) (fun d b hb => ?_) (fun _ _ hb => hb) hb
  refine Pattern.ends_seq (Rule.whole_infixOperator (.inl hb)) fun next b hb => ?_
  exact h.operand _ b (hb.mono (next.leadsTo_onward false).offset_le)

theorem succ (h : WholeDownTo depth) : WholeDownTo (depth + 1) := by
  have hoperand : ∀ c a, a.WholeFrom c.offset →
      (Rule.run (depth + 1) .operand false c a).Leaves Whole := fun c a ha =>
    Rule.ends_run (h.operandBody ha) (fun _ _ hb => hb) nofun
  refine ⟨fun r hr c a ha => ?_, hoperand⟩
  by_cases hop : r = .operand
  · subst hop
    exact hoperand c a (.inl ha)
  have hbody : (r.body.run (Rule.run depth) (false || r.isAtomic) c a).Leaves Whole := by
    by_cases hex : r = .expression
    · subst hex
      exact h.expressionBody ha
    refine Pattern.leaves_run (fun s hs d b hb => ?_) ha
    cases hatomic : r.isAtomic with
    | true => exact (Rule.leaves_run_atomic depth s d b).mono (fun _ _ => (· ▸ hb)) fun _ => (· ▸ hb)
    | false => exact h.leaves s (Rule.notMem_operatorRules hs hr hop hex) d b hb
  exact Rule.ends_run_of_grows hbody (fun _ _ hb => hb) fun _ b hb hgrows => ha.record hb hgrows hr _

end WholeDownTo

theorem wholeDownTo (depth : Nat) : WholeDownTo depth := by
  induction depth with
  | zero => exact ⟨fun _ _ _ _ _ => trivial, fun _ _ _ => trivial⟩
  | succ depth ih => exact ih.succ

/-! ## What can be noted -/

/-- Whether a rule can be noted as missing, below the rule for a whole text. -/
def Rule.isNoted : Rule → Bool
  | program | statementInput | expressionInput | returnStatement | expressionStatement => false
  | r => !r.isSilent

/-- The rules for a whole text. -/
def entryRules : List Rule := [.program, .statementInput, .expressionInput]

/-- All rules that failed are such that can be noted. -/
def Attempts.Noted (a : Attempts) : Prop := ∀ r ∈ a.rules, r.isNoted = true

open Attempts (Noted)

theorem Rule.notMem_entryRules {r s : Rule} (hs : s ∈ r.body.rules) : s ∉ entryRules := by
  have hall : ∀ s ∈ r.body.rules, s ∉ entryRules := by cases r <;> decide
  exact hall s hs

theorem Rule.eq_of_not_noted {r : Rule} (hloud : r.isSilent = false) (hr : r ∉ entryRules)
    (h : ¬ r.isNoted = true) : r = .returnStatement ∨ r = .expressionStatement := by
  revert hloud hr h
  cases r <;> decide

section

variable {depth : Nat} {r : Rule} {c : Cursor} {a b : Attempts}

/-- What can follow an expression in a statement is never missing. -/
theorem Pattern.ends_expression {rest : Pattern} :
    ((seq (.rule .expression) (.maybe rest)).run (Rule.run depth) false c a).Ends (fun _ _ => True)
      (a.Marked · c.offset) := by
  refine ends_seq (Rule.ends_marked rfl) fun next b _ => ?_
  have hrest : (rest.run (Rule.run depth) false (next.onward false) b).Ends (fun _ _ => True)
      (fun _ => True) := by
    cases rest.run (Rule.run depth) false (next.onward false) b <;> trivial
  exact ends_maybe hrest fun _ _ => trivial

theorem Rule.ends_expressionStatement :
    (Rule.expressionStatement.body.run (Rule.run depth) false c a).Ends (fun _ _ => True)
      (a.Marked · c.offset) :=
  Pattern.ends_expression

/-- If the expression after `return` cannot be read, attempts were made further on. -/
theorem Rule.ends_returnStatement :
    (Rule.returnStatement.body.run (Rule.run depth) false c a).Ends (fun _ _ => True)
      (a.Marked · c.offset) := by
  have hkeyword : (Rule.run depth .kwReturn false c a).Ends
      (fun next _ => True ∧ c.offset + 1 ≤ next.offset) (fun b => a.Marked b c.offset ∧ True) :=
    (Rule.ends_marked rfl).and Rule.ends_beyond
  refine Pattern.ends_seq (hkeyword.mono (fun _ _ h => h.2) fun _ h => h.1) fun next b hnext => ?_
  refine Pattern.ends_expression.mono (fun _ _ h => h) fun b' hb => .inr ?_
  have honward := (next.leadsTo_onward false).offset_le
  have hle := hb.le
  omega

theorem Rule.noted_run (depth : Nat) {r : Rule} (hr : r ∉ entryRules) (atomic : Bool) (c : Cursor)
    {a : Attempts} (ha : a.Noted) : (Rule.run depth r atomic c a).Leaves Noted := by
  induction depth generalizing r atomic c a with
  | zero => trivial
  | succ depth ih =>
    have hbody : (r.body.run (Rule.run depth) (atomic || r.isAtomic) c a).Leaves Noted :=
      Pattern.leaves_run (fun s hs d b hb => ih (notMem_entryRules hs) _ d hb) ha
    by_cases hquiet : (atomic || r.isSilent) = true
    · exact ends_run hbody (fun _ _ hb => hb) (by simp [hquiet])
    by_cases hnoted : r.isNoted = true
    · exact ends_run_of_grows hbody (fun _ _ hb => hb) fun _ b hb hgrows =>
        hgrows.forall_record ha hb hnoted _
    -- what is left are two kinds of statements, which leave the attempts as they are
    have hmarked : (r.body.run (Rule.run depth) (atomic || r.isAtomic) c a).Ends (fun _ _ => True)
        (a.Marked · c.offset) := by
      obtain ⟨rfl, hloud⟩ : atomic = false ∧ r.isSilent = false := by simpa using hquiet
      rcases eq_of_not_noted hloud hr hnoted with rfl | rfl
      · exact ends_returnStatement
      · exact ends_expressionStatement
    have hboth := (hbody.and hmarked).mono (fun _ _ h => h.1) fun _ h => h
    refine ends_run hboth (fun h => absurd h hquiet) fun _ b hb => ?_
    rw [hb.2.record_eq]
    exact hb.1

end

/-! ## Labels -/

/-- How often a label is listed if it is listed. -/
def repetitions (label : String) : Nat :=
  if label = "infix operator" then 8 else if label = "prefix operator" then 2 else 1

theorem Rule.countP_fellows (r : Rule) :
    Rule.all.countP (fun s => s ∈ r.fellows) = repetitions r.label := by
  cases r <;> decide +kernel

/-- Among the rules that can be noted at a level, those with the label of a rule are its fellows. -/
theorem Level.label_eq_iff (level : Level) : ∀ r s : Rule, (r.isNoted = true ∨ r = level.rule) →
    (s.isNoted = true ∨ s = level.rule) → (s.label = r.label ↔ s ∈ r.fellows) := by
  have hall : ∀ r ∈ Rule.all, ∀ s ∈ Rule.all, (r.isNoted = true ∨ r = level.rule) →
    (s.isNoted = true ∨ s = level.rule) → (s.label = r.label ↔ s ∈ r.fellows) := by
    cases level <;> decide +kernel
  exact fun r s => hall r r.mem_all s s.mem_all

/-! ## What is listed -/

section

variable {level : Level} {a : Attempts}

/-- Where the rule of a level does not match, the attempts are complete. -/
theorem Level.whole_of_failed {source : List Char} (h : level.rule.recognise source = .failed a) :
    a.Whole := by
  have hplain : level.rule ∉ operatorRules := by cases level <;> decide
  have hempty : Attempts.empty.Whole := by simp [Whole, Gathered, Attempts.empty]
  have hleaves := (wholeDownTo (Rule.depthFor source)).leaves level.rule hplain (.ofText source) _ hempty
  rw [show Rule.run _ _ _ _ _ = _ from h] at hleaves
  exact hleaves

/-- Where the rule of a level does not match, it is the only one for a whole text that may be listed. -/
theorem Level.noted_of_failed {source : List Char} (h : level.rule.recognise source = .failed a) :
    ∀ r ∈ a.rules, r.isNoted = true ∨ r = level.rule := by
  have hempty : Attempts.empty.Noted := by simp [Noted, Attempts.empty]
  have hdepth : Rule.depthFor source = 16 * source.length + 15 + 1 := by
    unfold Rule.depthFor
    omega
  have hbody : (level.rule.body.run (Rule.run (16 * source.length + 15)) (false || level.rule.isAtomic)
      (.ofText source) .empty).Leaves Noted :=
    Pattern.leaves_run (fun s hs d b hb => Rule.noted_run _ (Rule.notMem_entryRules hs) _ d hb) hempty
  have hends : (level.rule.recognise source).Ends (fun _ => Noted)
      (fun b => ∀ r ∈ b.rules, r.isNoted = true ∨ r = level.rule) := by
    unfold Rule.recognise
    rw [hdepth]
    refine Rule.ends_run_of_grows hbody (fun _ b hb s hs => .inl (hb s hs)) fun _ b hb hgrows => ?_
    exact hgrows.forall_record (fun s hs => .inl (hempty s hs)) (fun s hs => .inl (hb s hs)) (.inr rfl) _
  rw [h] at hends
  exact hends

/-- The label of a rule that is listed occurs once for each rule with the same label that comes
together with it. -/
theorem Attempts.count_expected (hwhole : a.Whole)
    (hnoted : ∀ r ∈ a.rules, r.isNoted = true ∨ r = level.rule) {r : Rule} (hr : r ∈ a.rules) :
    (a.expected.map Rule.label).count r.label = repetitions r.label := by
  rw [← Rule.countP_fellows, List.count, List.countP_map, expected, List.countP_filter]
  refine List.countP_congr fun s _ => ?_
  simp only [Function.comp, Bool.and_eq_true, beq_iff_eq, List.contains_iff_mem, decide_eq_true_eq]
  constructor
  · rintro ⟨hlabel, hs⟩
    exact (level.label_eq_iff r s (hnoted r hr) (hnoted s hs)).mp hlabel
  · intro hfellow
    have hs := hwhole r hr s hfellow
    exact ⟨(level.label_eq_iff r s (hnoted r hr) (hnoted s hs)).mpr hfellow, hs⟩

end

/-- **How often an alternative is listed.** If the grammar does not match, an operator between operands
that is expected is listed eight times, an operator in front of an operand twice, and everything else
once. So each alternative is listed once exactly if no operator is expected. -/
theorem parseAt_expected {first : NodeId} {source : String} {level : Level} {expected : List String}
    {span : Span} (h : parseAt first source level = .error ⟨.mismatch expected, span⟩) :
    (∀ label ∈ expected, expected.count label = repetitions label) ∧
    (expected.Nodup ↔ "infix operator" ∉ expected ∧ "prefix operator" ∉ expected) := by
  have hcount : ∀ label ∈ expected, expected.count label = repetitions label := by
    rcases cases_of_parseAt_error h with ⟨a, hrun, herror⟩ | ⟨_, _, _, t, -, -, herror⟩
    · obtain ⟨rfl, -⟩ : expected = a.expected.map Rule.label ∧ _ := by simpa using herror
      intro label hlabel
      obtain ⟨r, hr, rfl⟩ := List.mem_map.mp hlabel
      have hmem : r ∈ a.rules := by simpa using (List.mem_filter.mp hr).2
      exact Attempts.count_expected (Level.whole_of_failed hrun) (Level.noted_of_failed hrun) hmem
    · simp [Pair.tooLarge] at herror
  refine ⟨hcount, fun hnodup => ?_, fun ⟨hbinary, hunary⟩ => ?_⟩
  · have honce : ∀ label ∈ expected, repetitions label = 1 := fun label hlabel =>
      (hcount label hlabel).symm.trans (List.count_eq_one_of_mem hnodup hlabel)
    exact ⟨fun h => absurd (honce _ h) (by decide), fun h => absurd (honce _ h) (by decide)⟩
  · refine List.nodup_iff_count_le_one.mpr fun label => ?_
    by_cases hlabel : label ∈ expected
    · have hone : repetitions label = 1 := by
        unfold repetitions
        rw [if_neg (by rintro rfl; exact hbinary hlabel), if_neg (by rintro rfl; exact hunary hlabel)]
      exact Nat.le_of_eq ((hcount label hlabel).trans hone)
    · simp [List.count_eq_zero_of_not_mem hlabel]

/-- Where a name is missing nothing else is expected. -/
theorem parseAt_expected_name :
    ∃ expected span, parseAt 0 "let 5" .program = .error ⟨.mismatch expected, span⟩ ∧
      expected.Nodup ∧ expected.count "identifier" = 1 := by
  have hparse : parseAt 0 "let 5" .program = .error ⟨.mismatch ["identifier"], ⟨4, 4⟩⟩ := by cbv
  obtain ⟨hcount, hnodup⟩ := parseAt_expected hparse
  exact ⟨_, _, hparse, hnodup.mpr (by decide), hcount "identifier" (by decide)⟩

/-- Behind an operand all operators are expected, and each is listed. -/
theorem parseAt_operators_repeated :
    ∃ expected span, parseAt 0 "1 )" .program = .error ⟨.mismatch expected, span⟩ ∧
      expected.count "infix operator" = 8 ∧ ¬ expected.Nodup := by
  have hparse : parseAt 0 "1 )" .program = .error
      ⟨.mismatch (["end of input", "expression"] ++ List.replicate 8 "infix operator" ++
        ["argument list", "`let`", "`return`"]), ⟨2, 2⟩⟩ := by cbv
  exact ⟨_, _, hparse, by decide, by decide⟩

end TraceTree

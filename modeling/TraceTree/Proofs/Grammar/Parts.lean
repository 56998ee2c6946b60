import Mathlib.Computability.Language
import TraceTree.Proofs.Grammar.Attempts

set_option autoImplicit false

/-! # The parts of a pair

Which pairs a match makes, one after the other, follows from its pattern: the rules of the pairs are
a word of a regular language. Inside an atomic rule no pairs are made. So the rule of a pair says
which rules the pairs directly inside it have (`Pair.HasParts`). -/

namespace TraceTree

open Computability

/-! ## Languages of rules -/

/-- The words that consist of one of the rules. -/
def anyOf (rs : List Rule) : Language Rule := fun w => ∃ r ∈ rs, w = [r]

@[simp]
theorem mem_anyOf {rs w : List Rule} : w ∈ anyOf rs ↔ ∃ r ∈ rs, w = [r] := Iff.rfl

/-- The rules of operators in front of an operand. -/
def prefixRules : List Rule := [.bang, .neg]

/-- The rules of operators between operands. -/
def infixRules : List Rule := [.eq, .notEq, .lt, .gt, .add, .sub, .mul, .div]

/-- The rules of what an operand begins with, after its operators. -/
def primaryRules : List Rule :=
  [.integer, .boolean, .ifExpression, .functionLiteral, .identifier, .expression]

/-- The rules of statements. -/
def statementRules : List Rule := [.letStatement, .returnStatement, .expressionStatement]

/-- The rules of the pairs that a rule can make: its own, unless it is silent. -/
@[simp]
def Rule.language : Rule → Language Rule
  | statement => anyOf statementRules
  | operand => (anyOf prefixRules)∗ * (anyOf primaryRules * (anyOf [callArgs])∗)
  | prefixOperator => anyOf prefixRules
  | infixOperator => anyOf infixRules
  | postfixOperator => anyOf [callArgs]
  | primary => anyOf primaryRules
  | whitespace | comment | identChar => 1
  | r => anyOf [r]

/-- The rules of the pairs that a pattern can make. -/
@[simp]
def Pattern.language : Pattern → Language Rule
  | .start | .finish | .char _ | .word _ | .unless _ => 1
  | .rule r => r.language
  | .seq first second => first.language * second.language
  | .choice first second => first.language + second.language
  | .maybe p => p.language + 1
  | .many p => p.language∗

theorem Rule.language_of_loud {r : Rule} (h : r.isSilent = false) : r.language = anyOf [r] := by
  cases r with
  | whitespace | comment | statement | operand | prefixOperator | infixOperator
  | postfixOperator | primary | identChar => cases h
  | _ => rfl

theorem Rule.language_of_unseen {r : Rule} (hsilent : r.isSilent = true)
    (hatomic : r.isAtomic = true) : r.language = 1 := by
  cases r with
  | whitespace | comment => rfl
  | statement | operand | prefixOperator | infixOperator | postfixOperator | primary | identChar =>
    cases hatomic
  | _ => cases hsilent

/-- A silent rule makes what its body does. -/
theorem Rule.mem_language_of_body {r : Rule} (hsilent : r.isSilent = true)
    (hatomic : r.isAtomic = false) {w : List Rule} (h : w ∈ r.body.language) :
    w ∈ r.language := by
  cases r with
  | statement | prefixOperator | infixOperator | primary =>
    simpa [body, Pattern.language, Pattern.oneOf, Pattern.inOrder, Pattern.text, language,
      Language.mem_add, mem_anyOf, statementRules, prefixRules, infixRules, primaryRules,
      -add_eq_sup] using h
  | operand | postfixOperator | identChar => exact h
  | whitespace | comment => cases hatomic
  | _ => cases hsilent

/-! ## The rules of the pairs that are made -/

/-- The rules of pairs. -/
def rulesOf (pairs : List Pair) : List Rule := pairs.map Pair.rule

section

variable {c next : Cursor} {a a' : Attempts} {pairs : List Pair}

/-- A pattern makes nothing inside an atomic rule, if no rule does. -/
theorem Pattern.eq_nil_of_atomic {call : Call}
    (hcall : ∀ r c a pairs next a', call r true c a = .matched pairs next a' → pairs = [])
    {p : Pattern} (h : p.run call true c a = .matched pairs next a') : pairs = [] := by
  have hnone : ∀ q ∈ pairs, False := forall_of_run (fun r _ c a ps next a' hr q hq => by
    rw [hcall r c a ps next a' hr] at hq
    exact List.not_mem_nil hq) h
  exact List.eq_nil_iff_forall_not_mem.mpr hnone

/-- Inside an atomic rule nothing is made. -/
theorem Rule.eq_nil_of_atomic (depth : Nat) {r : Rule}
    (h : Rule.run depth r true c a = .matched pairs next a') : pairs = [] := by
  induction depth generalizing r c a pairs next a' with
  | zero => cases h
  | succ depth ih =>
    obtain ⟨inner, hbody, hpairs⟩ := Rule.run_eq_matched h
    rw [hpairs, Bool.true_or, if_pos rfl]
    exact Pattern.eq_nil_of_atomic (fun r c a pairs next a' => ih) hbody

/-- The pairs of a match of a pattern have the rules of a word of its language, if those of a match
of a rule do. -/
theorem Pattern.rules_mem_of_run {call : Call}
    (hcall : ∀ r c a pairs next a', call r false c a = .matched pairs next a' →
      rulesOf pairs ∈ r.language)
    {p : Pattern} (h : p.run call false c a = .matched pairs next a') :
    rulesOf pairs ∈ p.language := by
  replace h := derives_of_run h
  induction h with
  | start | finish | char | word | missed => exact Language.nil_mem_one
  | rule matched => exact hcall _ _ _ _ _ _ matched
  | seq _ _ ihp ihq => exact Language.mem_mul.mpr ⟨_, ihp, _, ihq, List.map_append.symm⟩
  | left _ ih | once _ ih => exact Or.inl ih
  | right _ ih => exact Or.inr ih
  | absent => exact Or.inr Language.nil_mem_one
  | @never p _ => exact Language.nil_mem_kstar p.language
  | @round p _ _ _ _ ih => exact (le_kstar : p.language ≤ p.language∗) ih
  | @again p _ _ _ ps qs _ _ ihrounds ih =>
    show rulesOf (ps ++ qs) ∈ p.language∗
    rw [← Language.one_add_kstar_mul_self_eq_kstar]
    exact Or.inr (Language.mem_mul.mpr ⟨_, ihrounds, _, ih, List.map_append.symm⟩)

theorem Rule.rules_mem_of_run (depth : Nat) {r : Rule}
    (h : Rule.run depth r false c a = .matched pairs next a') : rulesOf pairs ∈ r.language := by
  induction depth generalizing r c a pairs next a' with
  | zero => cases h
  | succ depth ih =>
    obtain ⟨inner, hbody, rfl⟩ := Rule.run_eq_matched h
    rw [Bool.false_or] at hbody ⊢
    cases hsilent : r.isSilent with
    | false =>
      rw [language_of_loud hsilent]
      exact ⟨r, List.mem_cons_self, rfl⟩
    | true =>
      rw [if_pos rfl]
      cases hatomic : r.isAtomic with
      | true =>
        rw [hatomic] at hbody
        rw [Pattern.eq_nil_of_atomic (fun r c a pairs next a' => eq_nil_of_atomic depth) hbody,
          language_of_unseen hsilent hatomic]
        exact Language.nil_mem_one
      | false =>
        rw [hatomic] at hbody
        exact mem_language_of_body hsilent hatomic
          (Pattern.rules_mem_of_run (fun r c a pairs next a' => ih) hbody)

end

/-! ## The parts of a pair -/

/-- The rules that the pairs directly inside a pair of the rule have. -/
def Rule.parts (r : Rule) : Language Rule := if r.isAtomic then 1 else r.body.language

/-- The pairs directly inside a pair have the rules that its own rule asks for. -/
def Pair.HasParts (p : Pair) : Prop := rulesOf p.children ∈ p.rule.parts

/-- What the body of a rule makes has the rules of the parts. -/
theorem Rule.rules_mem_parts {depth : Nat} {r : Rule} {c next : Cursor} {a a' : Attempts}
    {pairs : List Pair}
    (h : r.body.run (Rule.run depth) r.isAtomic c a = .matched pairs next a') :
    rulesOf pairs ∈ r.parts := by
  unfold parts
  cases hatomic : r.isAtomic with
  | true =>
    rw [hatomic] at h
    rw [Pattern.eq_nil_of_atomic (fun _ _ _ _ _ _ => eq_nil_of_atomic depth) h]
    exact Language.nil_mem_one
  | false =>
    rw [hatomic] at h
    exact Pattern.rules_mem_of_run (fun _ _ _ _ _ _ => rules_mem_of_run depth) h

/-- A rule that is not silent makes one pair, with its parts inside. -/
theorem Rule.hasParts_run {depth : Nat} {r : Rule} {c next : Cursor} {a a' : Attempts}
    {pairs : List Pair} (hloud : r.isSilent = false)
    (h : Rule.run depth r false c a = .matched pairs next a') : ∀ q ∈ pairs, q.HasParts := by
  cases depth with
  | zero => cases h
  | succ depth =>
    obtain ⟨inner, hbody, rfl⟩ := run_eq_matched h
    rw [hloud, Bool.false_or, if_neg Bool.false_ne_true]
    exact List.forall_mem_singleton.mpr (rules_mem_parts hbody)

/-- What the grammar says of a single pair: the rules of its parts, and the text of a number or of a
truth value. -/
structure Pair.WellMade (p : Pair) : Prop where
  parts : p.HasParts
  spelled : p.Spelled

/-- **The pairs of a match are well made,** at every depth. -/
theorem Rule.wellMade_of_run (depth : Nat) {r : Rule} {atomic : Bool} {c next : Cursor}
    {a a' : Attempts} {pairs : List Pair} (h : Rule.run depth r atomic c a = .matched pairs next a') :
    ∀ q ∈ pairs, q.Everywhere Pair.WellMade := by
  refine everywhere_of_run (fun r c a pairs next a' hloud h q hq => ⟨?_, ?_⟩) depth h
  · exact hasParts_run hloud h q hq
  · exact spelled_outcome hloud h q hq

/-! ## What the parts are -/

theorem mem_kstar_anyOf {rs w : List Rule} : w ∈ (anyOf rs)∗ → ∀ r ∈ w, r ∈ rs := by
  rintro ⟨words, rfl, hwords⟩ r hr
  obtain ⟨word, hword, hmem⟩ := List.mem_flatten.mp hr
  obtain ⟨s, hs, rfl⟩ := hwords word hword
  rwa [List.mem_singleton.mp hmem]

/-- A list with separators, which may be empty. -/
theorem mem_separated {r : Rule} {w : List Rule}
    (h : w ∈ anyOf [r] * (1 * anyOf [r])∗ + 1) : ∀ s ∈ w, s = r := by
  rcases h with h | rfl
  · rw [one_mul] at h
    obtain ⟨first, ⟨r', hr, rfl⟩, more, hmore, rfl⟩ := Language.mem_mul.mp h
    obtain rfl := List.mem_singleton.mp hr
    exact List.forall_mem_cons.mpr ⟨rfl, fun s hs => List.mem_singleton.mp (mem_kstar_anyOf hmore s hs)⟩
  · exact fun _ hs => absurd hs List.not_mem_nil

section

variable {w : List Rule}

theorem mem_parts_letStatement (h : w ∈ Rule.letStatement.parts) :
    w = [.kwLet, .identifier, .expression] := by
  simpa [Rule.parts, Rule.isAtomic, Rule.body, Pattern.inOrder, Pattern.text, Language.mem_mul,
    eq_comm] using h

theorem mem_parts_returnStatement (h : w ∈ Rule.returnStatement.parts) :
    w = [.kwReturn, .expression] := by
  simpa [Rule.parts, Rule.isAtomic, Rule.body, Pattern.inOrder, Pattern.text, Language.mem_mul,
    eq_comm] using h

theorem mem_parts_expressionStatement (h : w ∈ Rule.expressionStatement.parts) :
    w = [.expression] := by
  simpa [Rule.parts, Rule.isAtomic, Rule.body, Pattern.text] using h

theorem mem_parts_block (h : w ∈ Rule.block.parts) : ∀ r ∈ w, r ∈ statementRules := by
  refine mem_kstar_anyOf ?_
  simpa [Rule.parts, Rule.isAtomic, Rule.body, Pattern.inOrder, Pattern.text] using h

theorem mem_parts_ifExpression (h : w ∈ Rule.ifExpression.parts) :
    w = [.kwIf, .expression, .block] ∨ w = [.kwIf, .expression, .block, .kwElse, .block] := by
  simpa [Rule.parts, Rule.isAtomic, Rule.body, Pattern.inOrder, Language.mem_mul,
    Language.mem_add, -add_eq_sup, or_comm, eq_comm] using h

theorem mem_parts_functionLiteral (h : w ∈ Rule.functionLiteral.parts) :
    w = [.kwFn, .parameters, .block] := by
  simpa [Rule.parts, Rule.isAtomic, Rule.body, Pattern.inOrder, Pattern.text, Language.mem_mul,
    eq_comm] using h

theorem mem_parts_parameters (h : w ∈ Rule.parameters.parts) : ∀ r ∈ w, r = .identifier :=
  mem_separated h

theorem mem_parts_callArgs (h : w ∈ Rule.callArgs.parts) : ∀ r ∈ w, r = .expression := by
  refine mem_separated ?_
  simpa [Rule.parts, Rule.isAtomic, Rule.body, Pattern.inOrder, Pattern.text, -add_eq_sup] using h

theorem mem_parts_program (h : w ∈ Rule.program.parts) :
    ∃ rs, w = rs ++ [.endOfInput] ∧ ∀ r ∈ rs, r ∈ statementRules := by
  have hwords : w ∈ (anyOf statementRules)∗ * anyOf [.endOfInput] := by
    simpa [Rule.parts, Rule.isAtomic, Rule.body, Pattern.inOrder] using h
  obtain ⟨rs, hrs, last, ⟨r, hr, rfl⟩, rfl⟩ := Language.mem_mul.mp hwords
  obtain rfl := List.mem_singleton.mp hr
  exact ⟨rs, rfl, mem_kstar_anyOf hrs⟩

theorem mem_parts_statementInput (h : w ∈ Rule.statementInput.parts) :
    ∃ r ∈ statementRules, w = [r, .endOfInput] := by
  have hwords : w ∈ anyOf statementRules * anyOf [.endOfInput] := by
    simpa [Rule.parts, Rule.isAtomic, Rule.body, Pattern.inOrder] using h
  obtain ⟨first, ⟨r, hr, rfl⟩, last, ⟨r', hr', rfl⟩, rfl⟩ := Language.mem_mul.mp hwords
  obtain rfl := List.mem_singleton.mp hr'
  exact ⟨r, hr, rfl⟩

theorem mem_parts_expressionInput (h : w ∈ Rule.expressionInput.parts) :
    w = [.expression, .endOfInput] := by
  simpa [Rule.parts, Rule.isAtomic, Rule.body, Pattern.inOrder, Pattern.text, Language.mem_mul,
    eq_comm] using h

/-- Rules of tokens: the pairs have no parts. -/
def tokenRules : List Rule :=
  [.integer, .boolean, .identifier, .endOfInput, .kwLet, .kwReturn, .kwFn, .kwIf, .kwElse] ++
    prefixRules ++ infixRules

theorem mem_parts_token {r : Rule} (hr : r ∈ tokenRules) (h : w ∈ r.parts) : w = [] := by
  have hone : r.parts = 1 := by
    simp only [tokenRules, prefixRules, infixRules, List.cons_append, List.nil_append,
      List.mem_cons, List.not_mem_nil, or_false] at hr
    rcases hr with rfl | rfl | rfl | rfl | rfl | rfl | rfl | rfl | rfl | rfl | rfl | rfl | rfl |
      rfl | rfl | rfl | rfl | rfl | rfl <;> rfl
  rwa [hone] at h

/-! ### Expressions -/

/-- Rules of operands with operators between them. The flag says whether an operand has begun: then
arguments, an operator and the end may come; otherwise only operators in front of an operand and the
operand itself. -/
inductive Alternates : Bool → List Rule → Prop where
  | done : Alternates true []
  | prefixOp {r : Rule} {rs : List Rule} (h : r ∈ prefixRules) (more : Alternates false rs) :
      Alternates false (r :: rs)
  | primary {r : Rule} {rs : List Rule} (h : r ∈ primaryRules) (more : Alternates true rs) :
      Alternates false (r :: rs)
  | callArgs {rs : List Rule} (more : Alternates true rs) : Alternates true (.callArgs :: rs)
  | infixOp {r : Rule} {rs : List Rule} (h : r ∈ infixRules) (more : Alternates false rs) :
      Alternates true (r :: rs)

theorem Alternates.prefixes {rs more : List Rule} (hrs : ∀ r ∈ rs, r ∈ prefixRules)
    (h : Alternates false more) : Alternates false (rs ++ more) := by
  induction rs with
  | nil => exact h
  | cons r rs ih =>
    obtain ⟨hr, hrs⟩ := List.forall_mem_cons.mp hrs
    exact .prefixOp hr (ih hrs)

theorem Alternates.calls {rs more : List Rule} (hrs : ∀ r ∈ rs, r ∈ [Rule.callArgs])
    (h : Alternates true more) : Alternates true (rs ++ more) := by
  induction rs with
  | nil => exact h
  | cons r rs ih =>
    obtain ⟨hr, hmore⟩ := List.forall_mem_cons.mp hrs
    obtain rfl := List.mem_singleton.mp hr
    exact .callArgs (ih hmore)

/-- After an operand the rest of an expression may come. -/
theorem Alternates.operand {more : List Rule} (hw : w ∈ Rule.operand.language)
    (h : Alternates true more) : Alternates false (w ++ more) := by
  obtain ⟨ops, hops, rest, hrest, rfl⟩ := Language.mem_mul.mp hw
  obtain ⟨first, ⟨r, hr, rfl⟩, calls, hcalls, rfl⟩ := Language.mem_mul.mp hrest
  rw [List.append_assoc]
  refine .prefixes (mem_kstar_anyOf hops) (.primary hr ?_)
  exact .calls (mem_kstar_anyOf hcalls) h

theorem mem_parts_expression (h : w ∈ Rule.expression.parts) : Alternates false w := by
  obtain ⟨first, hfirst, rest, ⟨words, rfl, hwords⟩, rfl⟩ := Language.mem_mul.mp h
  refine .operand hfirst ?_
  clear h
  induction words with
  | nil => exact .done
  | cons word words ih =>
    obtain ⟨hword, hmore⟩ := List.forall_mem_cons.mp hwords
    obtain ⟨op, ⟨r, hr, rfl⟩, second, hsecond, rfl⟩ := Language.mem_mul.mp hword
    rw [List.flatten_cons, List.append_assoc]
    have hoperand : Alternates false (second ++ words.flatten) := .operand hsecond (ih hmore)
    exact .infixOp hr hoperand

end

end TraceTree

import TraceTree.Proofs.Grammar.Words

set_option autoImplicit false

/-! # The pairs of a match

What a match makes follows the grammar: in every pair and in all pairs inside it, what stands where
a name belongs is an identifier, and the text of an identifier is a name. Reading a tree from the
pairs relies on this, since it takes the text of those pairs as it is. -/

namespace TraceTree

/-- What stands where a name belongs in a pair is an identifier, and an identifier has the text of
a name. -/
def Pair.Fits : Pair → Prop
  | .mk .identifier _ text _ => IsName text
  | .mk .letStatement _ _ [_, name, _] => name.rule = .identifier
  | .mk .functionLiteral _ _ [_, .mk _ _ _ names, _] => ∀ name ∈ names, name.rule = .identifier
  | _ => True

/-- A pair and all pairs inside it fit. -/
inductive Pair.Named : Pair → Prop where
  | mk {r : Rule} {span : Span} {text : List Char} {inner : List Pair}
      (fits : Pair.Fits (.mk r span text inner)) (inside : ∀ q ∈ inner, q.Named) :
      Named (.mk r span text inner)

/-- Something holds of a pair and of all pairs inside it. -/
inductive Pair.Everywhere (holds : Pair → Prop) : Pair → Prop where
  | mk {r : Rule} {span : Span} {text : List Char} {inner : List Pair}
      (here : holds (.mk r span text inner)) (inside : ∀ q ∈ inner, q.Everywhere holds) :
      Everywhere holds (.mk r span text inner)

theorem Pair.Everywhere.here {holds : Pair → Prop} {p : Pair} (h : p.Everywhere holds) :
    holds p := by
  cases h with
  | mk here _ => exact here

theorem Pair.Everywhere.inside {holds : Pair → Prop} {r : Rule} {span : Span} {text : List Char}
    {inner : List Pair} (h : (Pair.mk r span text inner).Everywhere holds) :
    ∀ q ∈ inner, q.Everywhere holds := by
  cases h with
  | mk _ inside => exact inside

theorem Pair.Everywhere.named {p : Pair} (h : p.Everywhere Pair.Fits) : p.Named := by
  induction h with
  | mk here _ ih => exact .mk here ih

/-! ## What patterns make -/

/-- The rules whose pairs a pattern can make. -/
def Pattern.rules : Pattern → List Rule
  | .start | .finish | .char _ | .word _ | .unless _ => []
  | .rule r => [r]
  | .seq first second | .choice first second => first.rules ++ second.rules
  | .maybe p | .many p => p.rules

section

variable {call : Call} {atomic : Bool} {c next : Cursor} {a a' : Attempts} {pairs : List Pair}
  {holds : Pair → Prop}

/-- What holds of all pairs that the rules in a pattern make holds of those that the pattern
makes. -/
theorem Pattern.forall_of_run {p : Pattern}
    (hcall : ∀ r ∈ p.rules, ∀ c a pairs next a', call r atomic c a = .matched pairs next a' →
      ∀ q ∈ pairs, holds q)
    (h : p.run call atomic c a = .matched pairs next a') : ∀ q ∈ pairs, holds q := by
  replace h := derives_of_run h
  induction h with
  | start | finish | char | word | absent | never | missed =>
    exact fun _ hq => absurd hq List.not_mem_nil
  | rule matched => exact hcall _ (List.mem_singleton_self _) _ _ _ _ _ matched
  | seq _ _ ihp ihq =>
    exact List.forall_mem_append.mpr
      ⟨ihp fun r hr => hcall r (List.mem_append_left _ hr),
        ihq fun r hr => hcall r (List.mem_append_right _ hr)⟩
  | left _ ih => exact ih fun r hr => hcall r (List.mem_append_left _ hr)
  | right _ ih => exact ih fun r hr => hcall r (List.mem_append_right _ hr)
  | once _ ih | round _ ih => exact ih hcall
  | again _ _ ihrounds ih => exact List.forall_mem_append.mpr ⟨ihrounds hcall, ih hcall⟩

/-- A pattern without rules makes nothing. -/
theorem Pattern.eq_nil_of_run {p : Pattern} (hp : p.rules = [])
    (h : p.run call atomic c a = .matched pairs next a') : pairs = [] := by
  have hnone : ∀ q ∈ pairs, False := forall_of_run (fun r hr => by simp [hp] at hr) h
  exact List.eq_nil_iff_forall_not_mem.mpr hnone

/-- A match of a rule makes one pair of what its body makes, unless the rule is silent. -/
theorem Rule.outcome_eq_matched {r : Rule} (hloud : r.isSilent = false)
    (h : r.outcome false c a = .matched pairs next a') :
    ∃ inner b, r.body.run Rule.outcome r.isAtomic c a = .matched inner next b ∧
      pairs = [.mk r ⟨c.offset, next.offset⟩ (c.upTo next) inner] := by
  rw [outcome_eq, hloud, Bool.false_or] at h
  split at h
  · next inner mid b hbody =>
    obtain ⟨rfl, rfl, rfl⟩ := Outcome.matched.inj h
    exact ⟨inner, b, hbody, rfl⟩
  · cases h
  · cases h

/-- What holds of every pair that a rule makes holds of the pairs of a match, at every depth. -/
theorem Rule.everywhere_of_run
    (hloud : ∀ (r : Rule) (c : Cursor) a pairs next a', r.isSilent = false →
      r.outcome false c a = .matched pairs next a' → ∀ q ∈ pairs, holds q)
    (depth : Nat) {r : Rule} (h : Rule.run depth r atomic c a = .matched pairs next a') :
    ∀ q ∈ pairs, q.Everywhere holds := by
  induction depth generalizing r atomic c a pairs next a' with
  | zero => cases h
  | succ depth ih =>
    obtain ⟨inner, hbody, hpairs⟩ := Rule.run_eq_matched h
    have hinner : ∀ q ∈ inner, q.Everywhere holds :=
      Pattern.forall_of_run (fun r _ c a pairs next a' h => ih h) hbody
    by_cases hsilent : (atomic || r.isSilent) = true
    · rwa [hpairs, if_pos hsilent]
    · rw [hpairs, if_neg hsilent] at h ⊢
      obtain ⟨rfl, hr⟩ : atomic = false ∧ r.isSilent = false := by simpa using hsilent
      have houtcome := Rule.extends_outcome (depth + 1) r false c a (by rw [h]; nofun)
      have hholds := hloud r c a _ next a' hr (houtcome.trans h)
      exact List.forall_mem_singleton.mpr (.mk (hholds _ List.mem_cons_self) hinner)

end

/-! ## The pairs that hold names -/

section

variable {c next : Cursor} {a a' : Attempts} {pairs : List Pair}

/-- The pair of an identifier has the text of a name. -/
theorem fits_identifier (h : Rule.identifier.outcome false c a = .matched pairs next a') :
    ∀ q ∈ pairs, q.Fits := by
  by_cases hname : IsName (leadingWord c.rest)
  · obtain ⟨span, inner, rfl⟩ := (takes_identifier hname (leadingWord_dropWhile c.rest)).made_of_outcome
      (leadingWord_append_dropWhile c.rest).symm h
    exact List.forall_mem_singleton.mpr hname
  · exact absurd h ((refuses_identifier hname).not_outcome rfl)

/-- The second pair in a `let` statement is an identifier. -/
theorem fits_letStatement (h : Rule.letStatement.outcome false c a = .matched pairs next a') :
    ∀ q ∈ pairs, q.Fits := by
  obtain ⟨inner, b, hbody, rfl⟩ := Rule.outcome_eq_matched rfl h
  obtain ⟨keyword, _, _, _, hkeyword, h₁, rfl⟩ := Pattern.run_seq_eq_matched hbody
  obtain ⟨name, _, _, _, hname, h₂, rfl⟩ := Pattern.run_seq_eq_matched h₁
  obtain ⟨sign, _, _, _, hsign, h₃, rfl⟩ := Pattern.run_seq_eq_matched h₂
  obtain ⟨value, _, _, stop, hvalue, hstop, rfl⟩ := Pattern.run_seq_eq_matched h₃
  obtain ⟨_, _, _, rfl⟩ := Rule.outcome_eq_matched rfl hkeyword
  obtain ⟨_, _, _, rfl⟩ := Rule.outcome_eq_matched rfl hname
  obtain ⟨_, _, _, rfl⟩ := Rule.outcome_eq_matched rfl hvalue
  obtain rfl := Pattern.eq_nil_of_run rfl hsign
  obtain rfl := Pattern.eq_nil_of_run rfl hstop
  exact List.forall_mem_singleton.mpr rfl

/-- The pairs in a list of parameters are identifiers. -/
theorem rule_of_parameters {r : Rule} {span : Span} {text : List Char} {names : List Pair}
    (h : Rule.parameters.outcome false c a = .matched [.mk r span text names] next a') :
    ∀ name ∈ names, name.rule = .identifier := by
  obtain ⟨inner, b, hbody, hpair⟩ := Rule.outcome_eq_matched rfl h
  obtain ⟨-, -, -, rfl⟩ := Pair.mk.inj (List.cons.inj hpair).1
  refine Pattern.forall_of_run (fun r hr c a pairs next a' hname => ?_) hbody
  obtain rfl : r = .identifier := by simpa [Rule.body, Pattern.rules, Pattern.text] using hr
  obtain ⟨_, _, _, rfl⟩ := Rule.outcome_eq_matched rfl hname
  exact List.forall_mem_singleton.mpr rfl

/-- The pairs inside the second pair in a function literal are identifiers. -/
theorem fits_functionLiteral (h : Rule.functionLiteral.outcome false c a = .matched pairs next a') :
    ∀ q ∈ pairs, q.Fits := by
  obtain ⟨inner, b, hbody, rfl⟩ := Rule.outcome_eq_matched rfl h
  obtain ⟨keyword, _, _, _, hkeyword, h₁, rfl⟩ := Pattern.run_seq_eq_matched hbody
  obtain ⟨opening, _, _, _, hopening, h₂, rfl⟩ := Pattern.run_seq_eq_matched h₁
  obtain ⟨names, _, _, _, hnames, h₃, rfl⟩ := Pattern.run_seq_eq_matched h₂
  obtain ⟨closing, _, _, code, hclosing, hcode, rfl⟩ := Pattern.run_seq_eq_matched h₃
  obtain ⟨_, _, _, rfl⟩ := Rule.outcome_eq_matched rfl hkeyword
  obtain ⟨_, _, _, rfl⟩ := Rule.outcome_eq_matched rfl hnames
  obtain ⟨_, _, _, rfl⟩ := Rule.outcome_eq_matched rfl hcode
  obtain rfl := Pattern.eq_nil_of_run rfl hopening
  obtain rfl := Pattern.eq_nil_of_run rfl hclosing
  exact List.forall_mem_singleton.mpr (rule_of_parameters hnames)

theorem Rule.fits_outcome {r : Rule} (hloud : r.isSilent = false)
    (h : r.outcome false c a = .matched pairs next a') : ∀ q ∈ pairs, q.Fits := by
  by_cases hidentifier : r = .identifier
  · exact fits_identifier (hidentifier ▸ h)
  by_cases hlet : r = .letStatement
  · exact fits_letStatement (hlet ▸ h)
  by_cases hfunction : r = .functionLiteral
  · exact fits_functionLiteral (hfunction ▸ h)
  obtain ⟨inner, b, -, rfl⟩ := outcome_eq_matched hloud h
  refine List.forall_mem_singleton.mpr ?_
  cases r <;> simp_all [Pair.Fits]

/-- **The pairs of a match are named,** at every depth. -/
theorem Rule.named_of_run (depth : Nat) {r : Rule} {atomic : Bool}
    (h : Rule.run depth r atomic c a = .matched pairs next a') : ∀ q ∈ pairs, q.Named :=
  fun q hq => (everywhere_of_run (fun _ _ _ _ _ _ => fits_outcome) depth h q hq).named

theorem Rule.named_of_recognise {r : Rule} {text : List Char}
    (h : r.recognise text = .matched pairs next a') : ∀ q ∈ pairs, q.Named :=
  named_of_run _ h

/-! ## The pairs of numbers and truth values -/

/-- The text of a number consists of digits, and that of a truth value is its word. -/
def Pair.Spelled : Pair → Prop
  | .mk .integer _ text _ => text ≠ [] ∧ ∀ x ∈ text, isDigit x = true
  | .mk .boolean _ text _ => ∃ value, text = truthText value
  | _ => True

theorem spelled_integer (h : Rule.integer.outcome false c a = .matched pairs next a') :
    ∀ q ∈ pairs, q.Spelled := by
  have htext : c.rest = c.rest.takeWhile isDigit ++ c.rest.dropWhile isDigit :=
    List.takeWhile_append_dropWhile.symm
  have hleft := head?_dropWhile isDigit c.rest
  have hdigits : ∀ x ∈ c.rest.takeWhile isDigit, isDigit x = true :=
    List.all_eq_true.mp List.all_takeWhile
  by_cases hne : c.rest.takeWhile isDigit = []
  · rw [hne, List.nil_append] at htext
    exact absurd h ((refuses_integer (htext ▸ hleft)).not_outcome rfl)
  · obtain ⟨span, inner, rfl⟩ := (takes_integer hne hdigits hleft).made_of_outcome htext h
    exact List.forall_mem_singleton.mpr ⟨hne, hdigits⟩

theorem spelled_boolean (h : Rule.boolean.outcome false c a = .matched pairs next a') :
    ∀ q ∈ pairs, q.Spelled := by
  by_cases hword : ∃ value, leadingWord c.rest = truthText value
  · obtain ⟨value, hvalue⟩ := hword
    have htext := leadingWord_append_dropWhile c.rest
    rw [hvalue] at htext
    obtain ⟨span, inner, rfl⟩ :=
      (takes_boolean value (leadingWord_dropWhile c.rest)).made_of_outcome htext.symm h
    exact List.forall_mem_singleton.mpr ⟨value, rfl⟩
  · exact absurd h ((refuses_boolean fun value hvalue => hword ⟨value, hvalue⟩).not_outcome rfl)

theorem Rule.spelled_outcome {r : Rule} (hloud : r.isSilent = false)
    (h : r.outcome false c a = .matched pairs next a') : ∀ q ∈ pairs, q.Spelled := by
  by_cases hinteger : r = .integer
  · exact spelled_integer (hinteger ▸ h)
  by_cases hboolean : r = .boolean
  · exact spelled_boolean (hboolean ▸ h)
  obtain ⟨inner, b, -, rfl⟩ := outcome_eq_matched hloud h
  refine List.forall_mem_singleton.mpr ?_
  cases r <;> simp_all [Pair.Spelled]

end

end TraceTree

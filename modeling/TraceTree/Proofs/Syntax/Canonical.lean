import TraceTree.Proofs.Syntax.Forms
import TraceTree.Proofs.Syntax.Grammatical
import TraceTree.Syntax.Printer

set_option autoImplicit false

/-! # Canonical texts

The canonical text of a tree, as the grammar meets it: which operators are taken, with what an
expression begins, and what may follow one so that it is not taken further than it goes. -/

namespace TraceTree

open Pattern

/-! ## Signs -/

/-- A rule that takes nothing but a sign. -/
structure Rule.Signs (r : Rule) (s : String) : Prop where
  body_eq : r.body = text s
  loud : r.isSilent = false
  spaced : r.isAtomic = false

/-- The only pair made is one of the rule. -/
def OfRule (r : Rule) (pairs : List Pair) : Prop := ∃ p, pairs = [p] ∧ p.rule = r

/-- One of the signs, the first in the list that the text begins with. -/
def Pattern.oneSignOf (s : Rule × String) (ss : List (Rule × String)) : Pattern :=
  oneOf (rule s.1) (ss.map (rule ·.1))

section

variable {r : Rule} {s : String} {cs : List Char}

theorem Rule.Signs.takes (h : r.Signs s) (cs : List Char) :
    (rule r).Takes false (s.toList ++ cs) (afterBlanks false cs) (OfRule r) := by
  have hbody : r.body.Takes false (s.toList ++ cs) (afterBlanks false cs) Nothing := by
    rw [h.body_eq]
    exact takes_word _ _ _
  exact hbody.rule h.loud h.spaced fun _ _ _ _ => ⟨_, rfl, rfl⟩

theorem Rule.Signs.refuses (h : r.Signs s) (hcs : ¬ s.toList <+: cs) :
    (rule r).Refuses false cs := by
  refine Refuses.rule ?_
  rw [h.body_eq, h.spaced]
  exact refuses_word hcs

theorem Pattern.takes_oneSignOf {s t : Rule × String} {ss : List (Rule × String)}
    (hsigns : ∀ u ∈ s :: ss, u.1.Signs u.2)
    (h : (s :: ss).find? (·.2.toList.isPrefixOf (t.2.toList ++ cs)) = some t) :
    (oneSignOf s ss).Takes false (t.2.toList ++ cs) (afterBlanks false cs) (OfRule t.1) := by
  induction ss generalizing s with
  | nil =>
    obtain rfl := List.mem_singleton.mp (List.mem_of_find?_eq_some h)
    exact (hsigns _ List.mem_cons_self).takes cs
  | cons s' ss ih =>
    obtain ⟨hs, hss⟩ := List.forall_mem_cons.mp hsigns
    rw [List.find?_cons] at h
    split at h
    · obtain rfl := Option.some.inj h
      exact (hs.takes cs).choice _
    · next hprefix =>
      refine (hs.refuses fun hs' => ?_).choice_takes (ih hss h)
      rw [← List.isPrefixOf_iff_prefix, hprefix] at hs'
      cases hs'

theorem Pattern.refuses_oneSignOf {s : Rule × String} {ss : List (Rule × String)}
    (hsigns : ∀ u ∈ s :: ss, u.1.Signs u.2)
    (h : ∀ u ∈ s :: ss, ¬ u.2.toList <+: cs) : (oneSignOf s ss).Refuses false cs := by
  have hrefuses : ∀ u ∈ s :: ss, (rule u.1).Refuses false cs :=
    fun u hu => (hsigns u hu).refuses (h u hu)
  clear hsigns h
  induction ss generalizing s with
  | nil => exact hrefuses s List.mem_cons_self
  | cons s' ss ih =>
    obtain ⟨hs, hss⟩ := List.forall_mem_cons.mp hrefuses
    exact hs.choice (ih hss)

end

/-- The operators between operands but the first, in the order in which they are tried. -/
def infixSigns : List (Rule × String) :=
  [(.notEq, "!="), (.lt, "<"), (.gt, ">"), (.add, "+"), (.sub, "-"), (.mul, "*"), (.div, "/")]

theorem signs_infix : ∀ u ∈ (Rule.eq, "==") :: infixSigns, u.1.Signs u.2 := by
  simp only [infixSigns, List.forall_mem_cons]
  exact ⟨⟨rfl, rfl, rfl⟩, ⟨rfl, rfl, rfl⟩, ⟨rfl, rfl, rfl⟩, ⟨rfl, rfl, rfl⟩, ⟨rfl, rfl, rfl⟩,
    ⟨rfl, rfl, rfl⟩, ⟨rfl, rfl, rfl⟩, ⟨rfl, rfl, rfl⟩, fun _ h => absurd h List.not_mem_nil⟩

theorem signs_prefix : ∀ u ∈ [(Rule.bang, "!"), (Rule.neg, "-")], u.1.Signs u.2 := by
  simp only [List.forall_mem_cons]
  exact ⟨⟨rfl, rfl, rfl⟩, ⟨rfl, rfl, rfl⟩, fun _ h => absurd h List.not_mem_nil⟩

/-- The rule of an operator. -/
def InfixOp.rule : InfixOp → Rule
  | add => .add
  | sub => .sub
  | mul => .mul
  | div => .div
  | lt => .lt
  | gt => .gt
  | eq => .eq
  | notEq => .notEq

/-- The rule of an operator. -/
def PrefixOp.rule : PrefixOp → Rule
  | not => .bang
  | neg => .neg

theorem InfixOp.infixOp_rule (op : InfixOp) : op.rule.infixOp? = some op := by
  cases op <;> rfl

theorem PrefixOp.prefixOp_rule (op : PrefixOp) : op.rule.prefixOp? = some op := by
  cases op <;> rfl

/-- An operator is taken before a blank. -/
theorem takes_infixOperator (op : InfixOp) {cs : List Char} (hcs : Solid cs) :
    (rule .infixOperator).Takes false (op.text.toList ++ ' ' :: cs) cs (OfRule op.rule) := by
  have htakes : (rule .infixOperator).Takes false (op.text.toList ++ ' ' :: cs)
      (afterBlanks false (' ' :: cs)) (OfRule op.rule) := by
    refine Takes.silent rfl rfl (takes_oneSignOf (t := (op.rule, op.text)) signs_infix ?_)
    cases op <;> rfl
  rwa [afterBlanks_cons rfl, hcs.afterBlanks_eq] at htakes

theorem takes_prefixOperator (op : PrefixOp) {cs : List Char} (hcs : Solid cs) :
    (rule .prefixOperator).Takes false (op.text.toList ++ cs) cs (OfRule op.rule) := by
  have htakes : (rule .prefixOperator).Takes false (op.text.toList ++ cs) (afterBlanks false cs)
      (OfRule op.rule) := by
    refine Takes.silent rfl rfl (takes_oneSignOf (t := (op.rule, op.text)) signs_prefix ?_)
    cases op <;> rfl
  rwa [hcs.afterBlanks_eq] at htakes

/-- The text of an operator with a blank after it is passed by no blanks. -/
theorem afterBlanks_infixOp (op : InfixOp) (cs : List Char) :
    afterBlanks false (op.text.toList ++ ' ' :: cs) = op.text.toList ++ ' ' :: cs := by
  cases op <;> rfl

theorem leadingWord_infixOp (op : InfixOp) (cs : List Char) :
    leadingWord (op.text.toList ++ ' ' :: cs) = [] := by
  cases op <;> rfl

theorem solid_prefixOp (op : PrefixOp) (cs : List Char) : Solid (op.text.toList ++ cs) := by
  intro x hx
  cases op <;> (obtain rfl := Option.some.inj hx; decide)

/-! ## What may follow -/

/-- The text goes on, after blanks, with something that cannot belong to a name. -/
def Follows (cs : List Char) : Prop := leadingWord (afterBlanks false cs) = []

/-- The characters that end an expression. -/
def delimiters : List Char := [';', ')', ',', '\x7b']

/-- The text goes on, after blanks, with the end of an expression. -/
def Delimited (cs : List Char) : Prop :=
  ∃ d ∈ delimiters, ∃ more, afterBlanks false cs = d :: more

/-- A character that is neither a blank nor a slash and cannot belong to a name. -/
def IsSign (x : Char) : Prop := isSpace x = false ∧ x ≠ '/' ∧ isNameChar x = false

instance (x : Char) : Decidable (IsSign x) := inferInstanceAs (Decidable (_ ∧ _ ∧ _))

theorem isSign_of_mem_delimiters {x : Char} (h : x ∈ delimiters) : IsSign x := by
  simp only [delimiters, List.mem_cons, List.not_mem_nil, or_false] at h
  rcases h with rfl | rfl | rfl | rfl <;> decide

theorem ne_of_isNameChar {x y : Char} (hx : isNameChar x = true) (hy : isNameChar y = false) :
    x ≠ y := by
  rintro rfl
  rw [hx] at hy
  cases hy

theorem isSpace_of_isNameChar {x : Char} (hx : isNameChar x = true) : isSpace x = false := by
  simp [isSpace, ne_of_isNameChar (y := ' ') hx rfl, ne_of_isNameChar (y := '\t') hx rfl,
    ne_of_isNameChar (y := '\r') hx rfl, ne_of_isNameChar (y := '\n') hx rfl]

theorem solid_cons {x : Char} {cs : List Char} (h : isNameChar x = true ∨ IsSign x) :
    Solid (x :: cs) := by
  intro y hy
  obtain rfl := Option.some.inj hy
  rcases h with h | ⟨hspace, hslash, -⟩
  · exact ⟨isSpace_of_isNameChar h, ne_of_isNameChar h rfl⟩
  · exact ⟨hspace, hslash⟩

section

variable {x : Char} {cs : List Char}

theorem afterBlanks_sign (h : IsSign x) (cs : List Char) :
    afterBlanks false (x :: cs) = x :: cs :=
  (solid_cons (.inr h)).afterBlanks_eq

theorem follows_sign (h : IsSign x) (cs : List Char) : Follows (x :: cs) := by
  rw [Follows, afterBlanks_sign h, leadingWord_eq_nil_iff]
  intro y hy
  rw [← Option.some.inj hy]
  exact h.2.2

theorem Follows.space (h : Follows cs) : Follows (' ' :: cs) := by
  rwa [Follows, afterBlanks_cons rfl]

/-- What follows does not prolong a word. -/
theorem Follows.leadingWord_eq_nil (h : Follows cs) : leadingWord cs = [] := by
  cases cs with
  | nil => rfl
  | cons x cs =>
    rw [leadingWord_eq_nil_iff]
    intro y hy
    obtain rfl := Option.some.inj hy
    cases hx : isNameChar x with
    | false => rfl
    | true =>
      rw [Follows, (solid_cons (.inl hx)).afterBlanks_eq, leadingWord_eq_nil_iff] at h
      rw [← hx]
      exact h x rfl

theorem Delimited.follows (h : Delimited cs) : Follows cs := by
  obtain ⟨d, hd, more, hcs⟩ := h
  rw [Follows, hcs, leadingWord_eq_nil_iff]
  intro y hy
  rw [← Option.some.inj hy]
  exact (isSign_of_mem_delimiters hd).2.2

theorem Delimited.space (h : Delimited cs) : Delimited (' ' :: cs) := by
  obtain ⟨d, hd, more, hcs⟩ := h
  exact ⟨d, hd, more, by rw [afterBlanks_cons rfl, hcs]⟩

theorem delimited_cons {d : Char} (hd : d ∈ delimiters) (cs : List Char) : Delimited (d :: cs) :=
  ⟨d, hd, cs, afterBlanks_sign (isSign_of_mem_delimiters hd) cs⟩

/-- No operator is taken at the end of an expression. -/
theorem Delimited.takes_noInfix (h : Delimited cs) :
    (many (seq (rule .infixOperator) (rule .operand))).Takes false (afterBlanks false cs)
      (afterBlanks false cs) Nothing := by
  have hrefuses : (rule .infixOperator).Refuses false (afterBlanks false cs) := by
    obtain ⟨d, hd, more, hcs⟩ := h
    rw [hcs]
    refine Refuses.rule (refuses_oneSignOf signs_infix ?_)
    simp only [delimiters, List.mem_cons, List.not_mem_nil, or_false] at hd
    rcases hd with rfl | rfl | rfl | rfl <;> simp [infixSigns, List.cons_prefix_cons]
  have htakes := (hrefuses.seq (rule .operand)).many
  rwa [afterBlanks_afterBlanks] at htakes

/-- No arguments are taken where no parenthesis opens. -/
theorem takes_noPostfix (h : ∀ x ∈ (afterBlanks false cs).head?, x ≠ '(') :
    (many (rule .postfixOperator)).Takes false (afterBlanks false cs) (afterBlanks false cs)
      Nothing := by
  have hrefuses : (rule .postfixOperator).Refuses false (afterBlanks false cs) := by
    refine Refuses.rule (Refuses.rule (Refuses.seq (refuses_word fun hprefix => ?_) _))
    obtain ⟨more, htext⟩ := hprefix
    exact h '(' (by rw [← htext]; rfl) rfl
  have htakes := hrefuses.many
  rwa [afterBlanks_afterBlanks] at htakes

theorem Delimited.takes_noPostfix (h : Delimited cs) :
    (many (rule .postfixOperator)).Takes false (afterBlanks false cs) (afterBlanks false cs)
      Nothing := by
  obtain ⟨d, hd, more, hcs⟩ := h
  refine TraceTree.takes_noPostfix fun x hx => ?_
  rw [hcs] at hx
  obtain rfl := Option.some.inj hx
  rintro rfl
  exact absurd hd (by decide)

/-! ## With what an expression begins -/

/-- The text begins as expressions do that are written without an operator, and a statement that
begins like this is not taken for one with a keyword. -/
structure Begins (cs : List Char) : Prop where
  head : ∃ x ∈ cs.head?, isNameChar x = true ∨ x = '('
  notLet : leadingWord cs ≠ "let".toList
  notReturn : leadingWord cs ≠ "return".toList

theorem Begins.solid (h : Begins cs) : Solid cs := by
  obtain ⟨x, hx, hkind⟩ := h.head
  obtain ⟨more, rfl⟩ := List.head?_eq_some_iff.mp hx
  refine solid_cons (hkind.imp_right ?_)
  rintro rfl
  decide

/-- A prefix operator is refused where none of their signs stands. -/
theorem refuses_prefixOperator (h : ∀ x ∈ cs.head?, x ≠ '!' ∧ x ≠ '-') :
    (rule .prefixOperator).Refuses false cs := by
  refine Refuses.rule (refuses_oneSignOf signs_prefix ?_)
  cases cs with
  | nil => simp
  | cons x more =>
    obtain ⟨hbang, hneg⟩ := h x rfl
    simp [List.cons_prefix_cons, hbang.symm, hneg.symm]

/-- No prefix operator is taken where a word or a parenthesis begins. -/
theorem Begins.takes_noPrefix (h : Begins cs) :
    (many (rule .prefixOperator)).Takes false cs cs Nothing := by
  obtain ⟨x, hx, hkind⟩ := h.head
  obtain ⟨more, rfl⟩ := List.head?_eq_some_iff.mp hx
  have hbang : x ≠ '!' := by rcases hkind with hx | rfl; exacts [ne_of_isNameChar hx rfl, by decide]
  have hneg : x ≠ '-' := by rcases hkind with hx | rfl; exacts [ne_of_isNameChar hx rfl, by decide]
  have hrefuses : (rule .prefixOperator).Refuses false (x :: more) :=
    refuses_prefixOperator fun y hy => Option.some.inj hy ▸ ⟨hbang, hneg⟩
  have htakes := hrefuses.many
  rwa [h.solid.afterBlanks_eq] at htakes

/-! ## Where nothing begins -/

/-- Nothing that an expression or a statement can begin with stands here. -/
def NothingBegins (cs : List Char) : Prop :=
  ∀ x ∈ cs.head?, IsSign x ∧ x ≠ '(' ∧ x ≠ '!' ∧ x ≠ '-'

theorem NothingBegins.leadingWord_eq_nil (h : NothingBegins cs) : leadingWord cs = [] :=
  leadingWord_eq_nil_iff.mpr fun x hx => (h x hx).1.2.2

theorem NothingBegins.afterBlanks_eq (h : NothingBegins cs) : afterBlanks false cs = cs :=
  Solid.afterBlanks_eq fun x hx => ⟨(h x hx).1.1, (h x hx).1.2.1⟩

theorem isName_nil : ¬ IsName [] := by
  rintro ⟨⟨x, hx, -⟩, -, -⟩
  cases hx

theorem isDigit_eq_false_of_isNameChar {x : Char} (h : isNameChar x = false) :
    isDigit x = false := by
  rw [isNameChar, Bool.or_eq_false_iff] at h
  exact h.2

theorem isDigit_eq_false_of_isNameStart {x : Char} (h : isNameStart x = true) :
    isDigit x = false := by
  refine Bool.eq_false_iff.mpr fun hdigit => ?_
  simp only [isDigit, isNameStart, Bool.and_eq_true, Bool.or_eq_true, decide_eq_true_eq,
    beq_iff_eq] at h hdigit
  rcases h with (⟨h, -⟩ | ⟨h, -⟩) | rfl
  · exact absurd (Char.le_trans h hdigit.2) (by decide)
  · exact absurd (Char.le_trans h hdigit.2) (by decide)
  · exact absurd hdigit (by decide)

/-- Where a word begins with a letter, neither a number nor, unless it is one, a truth value
stands. -/
theorem refuses_literals {w : List Char} (hword : leadingWord cs = w)
    (hstart : ∃ x ∈ w.head?, isNameStart x = true) (htrue : w ≠ "true".toList)
    (hfalse : w ≠ "false".toList) :
    (rule .integer).Refuses false cs ∧ (rule .boolean).Refuses false cs := by
  subst hword
  refine ⟨refuses_integer fun x hx => ?_, refuses_boolean fun value => ?_⟩
  · obtain ⟨y, hy, hstart⟩ := hstart
    obtain ⟨more, htext⟩ := List.takeWhile_prefix isNameChar (l := cs)
    obtain ⟨word, hhead⟩ := List.head?_eq_some_iff.mp hy
    rw [← htext, show cs.takeWhile isNameChar = y :: word from hhead] at hx
    obtain rfl := Option.some.inj hx
    exact isDigit_eq_false_of_isNameStart hstart
  · cases value with
    | true => exact htrue
    | false => exact hfalse

/-- An operand that begins with a word is refused where none stands. -/
theorem refuses_wordOperand (hword : leadingWord cs = []) {q : Pattern} :
    (q.Refuses false cs →
      (oneOf (rule .integer) [rule .boolean, rule .ifExpression, rule .functionLiteral,
        rule .identifier, q]).Refuses false cs) ∧
    ∀ left made, q.Takes false cs left made →
      (oneOf (rule .integer) [rule .boolean, rule .ifExpression, rule .functionLiteral,
        rule .identifier, q]).Takes false cs left made := by
  have hinteger : (rule .integer).Refuses false cs :=
    refuses_integer fun x hx =>
      isDigit_eq_false_of_isNameChar (leadingWord_eq_nil_iff.mp hword x hx)
  have hboolean : (rule .boolean).Refuses false cs :=
    refuses_boolean fun value => by rw [hword]; cases value <;> decide
  have hif : (rule .ifExpression).Refuses false cs :=
    Rule.refuses_otherStart rfl rfl (by rw [hword]; decide)
  have hfunction : (rule .functionLiteral).Refuses false cs :=
    Rule.refuses_otherStart rfl rfl (by rw [hword]; decide)
  have hidentifier : (rule .identifier).Refuses false cs :=
    refuses_identifier (by rw [hword]; exact isName_nil)
  exact ⟨fun hq => hinteger.choice (hboolean.choice (hif.choice (hfunction.choice
      (hidentifier.choice hq)))),
    fun _ _ hq => hinteger.choice_takes (hboolean.choice_takes (hif.choice_takes
      (hfunction.choice_takes (hidentifier.choice_takes hq))))⟩

theorem NothingBegins.refuses_primary (h : NothingBegins cs) :
    (rule .primary).Refuses false cs := by
  have hparen : (text "(").Refuses false cs := by
    refine refuses_word fun hprefix => ?_
    obtain ⟨more, rfl⟩ := hprefix
    exact (h '(' rfl).2.1 rfl
  exact Refuses.rule ((refuses_wordOperand h.leadingWord_eq_nil).1 (hparen.seq _))

/-- An expression is refused where neither a prefix operator nor an operand stands. -/
theorem refuses_expression (hblanks : afterBlanks false cs = cs)
    (hoperator : (rule .prefixOperator).Refuses false cs)
    (hprimary : (rule .primary).Refuses false cs) : (rule .expression).Refuses false cs := by
  have hoperators := hoperator.many
  rw [hblanks] at hoperators
  have hoperand : (rule .operand).Refuses false cs :=
    Refuses.rule (hoperators.seq_refuses (hprimary.seq _))
  exact Refuses.rule (hoperand.seq _)

theorem NothingBegins.refuses_expression (h : NothingBegins cs) :
    (rule .expression).Refuses false cs :=
  TraceTree.refuses_expression h.afterBlanks_eq (refuses_prefixOperator fun x hx => (h x hx).2.2)
    h.refuses_primary

theorem NothingBegins.refuses_statement (h : NothingBegins cs) :
    (rule .statement).Refuses false cs := by
  have hword := h.leadingWord_eq_nil
  have hlet : (rule .letStatement).Refuses false cs :=
    Rule.refuses_otherStart rfl rfl (by rw [hword]; decide)
  have hreturn : (rule .returnStatement).Refuses false cs :=
    Rule.refuses_otherStart rfl rfl (by rw [hword]; decide)
  have hexpression : (rule .expressionStatement).Refuses false cs :=
    Refuses.rule (h.refuses_expression.seq _)
  exact Refuses.rule (hlet.choice (hreturn.choice hexpression))

end

/-! ## Integers -/

theorem toInt_ofNat {value : Nat} (h : value ≤ maxInteger) :
    (Int64.ofNat value).toInt = (value : Int) :=
  Int64.toInt_ofNat_of_lt (Nat.lt_of_le_of_lt h (by decide))

/-- The digits of a number stand for it. -/
theorem decimalValue_toDigits (value : Nat) : decimalValue (Nat.toDigits 10 value) = value := by
  rw [decimalValue, ← Nat.ofDigitChars_eq_foldl]
  exact Nat.ofDigitChars_ten_toDigits

theorem isDigit_of_mem_toDigits {value : Nat} {x : Char} (h : x ∈ Nat.toDigits 10 value) :
    isDigit x = true :=
  Nat.isDigit_of_mem_toDigits (by decide) (by decide) h

theorem Node.toList_text_integer (id : NodeId) {value : Nat} (h : value ≤ maxInteger) :
    (text (integer id (Int64.ofNat value))).toList = Nat.toDigits 10 value := by
  rw [text, toInt_ofNat h, ← Nat.toList_repr]
  rfl

end TraceTree

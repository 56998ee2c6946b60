import Mathlib
import TraceTree.Proofs.Syntax.Canonical

set_option autoImplicit false

/-! # Canonical texts read back

The canonical text of a tree that keeps to the grammar is matched, and reading it makes a tree of
the same form. The text of an expression is followed as the text of an operand, to which calls may
still be added: the printer puts a callee before its arguments without parentheses. -/

namespace TraceTree

open Pattern Build

/-! ## The texts of nodes -/

namespace Node

variable (id : NodeId) (tail : List Char)

theorem toList_text_boolean (value : Bool) :
    (text (boolean id value)).toList = truthText value :=
  rfl

theorem toList_text_letStatement (name value : Node) :
    (text (letStatement id name value)).toList ++ tail =
      "let".toList ++ ' ' :: (name.text.toList ++
        ' ' :: ("=".toList ++ ' ' :: (value.text.toList ++ ';' :: tail))) := by
  simp [text]

theorem toList_text_returnStatement (value : Node) :
    (text (returnStatement id value)).toList ++ tail =
      "return".toList ++ ' ' :: (value.text.toList ++ ';' :: tail) := by
  simp [text]

theorem toList_text_expressionStatement (expression : Node) :
    (text (expressionStatement id expression)).toList ++ tail =
      expression.text.toList ++ ';' :: tail := by
  simp [text]

theorem toList_text_prefixExpression (op : PrefixOp) (right : Node) :
    (text (prefixExpression id op right)).toList ++ tail =
      "(".toList ++ (op.text.toList ++ (right.text.toList ++ ')' :: tail)) := by
  simp [text]

theorem toList_text_infixExpression (op : InfixOp) (left right : Node) :
    (text (infixExpression id op left right)).toList ++ tail =
      "(".toList ++ (left.text.toList ++
        ' ' :: (op.text.toList ++ ' ' :: (right.text.toList ++ ')' :: tail))) := by
  simp [text]

theorem toList_text_ifExpression (condition consequence : Node) :
    (text (ifExpression id condition consequence none)).toList ++ tail =
      "if".toList ++ ' ' :: (condition.text.toList ++
        ' ' :: (consequence.text.toList ++ tail)) := by
  simp [text]

theorem toList_text_ifElseExpression (condition consequence alternative : Node) :
    (text (ifExpression id condition consequence (some alternative))).toList ++ tail =
      "if".toList ++ ' ' :: (condition.text.toList ++ ' ' :: (consequence.text.toList ++
        ' ' :: ("else".toList ++ ' ' :: (alternative.text.toList ++ tail)))) := by
  simp [text]

theorem toList_text_functionLiteral (parameters : List Node) (body : Node) :
    (text (functionLiteral id parameters body)).toList ++ tail =
      "fn".toList ++ ("(".toList ++ ((joined ", " (texts parameters)).toList ++
        ')' :: ' ' :: (body.text.toList ++ tail))) := by
  simp [text]

theorem toList_text_call (function : Node) (arguments : List Node) :
    (text (call id function arguments)).toList ++ tail =
      function.text.toList ++ ("(".toList ++ ((joined ", " (texts arguments)).toList ++
        ')' :: tail)) := by
  simp [text]

/-- A block without statements has a blank between its braces. -/
theorem toList_text_block (statements : List Node) :
    ∃ stop, afterBlanks false stop = '\x7d' :: tail ∧
      (text (block id statements)).toList ++ tail =
        "\x7b".toList ++ ' ' :: ((joined " " (texts statements)).toList ++ stop) := by
  cases statements with
  | nil => exact ⟨'\x7d' :: tail, rfl, by simp [text, texts, joined]⟩
  | cons n more => exact ⟨' ' :: '\x7d' :: tail, rfl, by simp [text, texts]⟩

theorem toList_joined_cons (sep : String) (n : Node) (more : List Node) :
    (joined sep (texts (n :: more))).toList =
      n.text.toList ++ more.flatMap fun m => sep.toList ++ m.text.toList := by
  induction more generalizing n with
  | nil => simp [texts, joined]
  | cons m more ih =>
    have hmore := ih m
    simp only [texts, joined] at hmore ⊢
    simp [hmore]

end Node

/-! ## The beginning of an expression -/

theorem begins_word {w tail : List Char} (hw : ∀ x ∈ w, isNameChar x = true) (hne : w ≠ [])
    (hlet : w ≠ "let".toList) (hreturn : w ≠ "return".toList) (htail : leadingWord tail = []) :
    Begins (w ++ tail) := by
  have hword := leadingWord_append hw htail
  refine ⟨?_, by rwa [hword], by rwa [hword]⟩
  match w, hne with
  | x :: w, _ => exact ⟨x, rfl, .inl (hw x List.mem_cons_self)⟩

theorem begins_paren (cs : List Char) : Begins ("(".toList ++ cs) := by
  have hword : leadingWord ("(".toList ++ cs) = [] :=
    (follows_sign (by decide) cs).leadingWord_eq_nil
  exact ⟨⟨'(', rfl, .inr rfl⟩, by rw [hword]; decide, by rw [hword]; decide⟩

theorem isNameChar_of_isDigit {x : Char} (h : isDigit x = true) : isNameChar x = true := by
  rw [isNameChar, h, Bool.or_true]

theorem IsName.ne_nil {w : List Char} (h : IsName w) : w ≠ [] := by
  rintro rfl
  exact isName_nil h

/-- The text of an expression begins as the grammar expects. -/
theorem Node.Grammatical.begins {n : Node} (h : n.Grammatical .expression) {tail : List Char}
    (htail : leadingWord tail = []) : Begins (n.text.toList ++ tail) := by
  match h with
  | .identifier hname =>
    exact begins_word hname.chars hname.ne_nil (hname.free "let" (by decide))
      (hname.free "return" (by decide)) htail
  | .boolean =>
    rename_i id value
    rw [toList_text_boolean]
    have hmem : (if value then "true" else "false") ∈ keywords := by cases value <;> decide
    refine begins_word (keywords_chars _ hmem) ?_ ?_ ?_ htail <;> cases value <;> decide
  | .integer hvalue =>
    rename_i id value
    rw [toList_text_integer id hvalue]
    have hdigits : ∀ x ∈ Nat.toDigits 10 value, isDigit x = true :=
      fun x hx => isDigit_of_mem_toDigits hx
    refine begins_word (fun x hx => isNameChar_of_isDigit (hdigits x hx)) Nat.toDigits_ne_nil
      (fun hlet => ?_) (fun hreturn => ?_) htail
    · exact absurd (hdigits 'l' (hlet ▸ by decide)) (by decide)
    · exact absurd (hdigits 'r' (hreturn ▸ by decide)) (by decide)
  | .prefixExpression _ =>
    rw [toList_text_prefixExpression]
    exact begins_paren _
  | .infixExpression _ _ =>
    rw [toList_text_infixExpression]
    exact begins_paren _
  | .ifExpression _ _ =>
    rw [toList_text_ifExpression]
    exact begins_word (keywords_chars "if" (by decide)) (by decide) (by decide) (by decide) rfl
  | .ifElseExpression _ _ _ =>
    rw [toList_text_ifElseExpression]
    exact begins_word (keywords_chars "if" (by decide)) (by decide) (by decide) (by decide) rfl
  | .functionLiteral _ _ =>
    rw [toList_text_functionLiteral]
    exact begins_word (keywords_chars "fn" (by decide)) (by decide) (by decide) (by decide) rfl
  | .call hfunction _ =>
    rw [toList_text_call]
    exact hfunction.begins rfl

/-! ## What it is to be read back -/

/-- The grammar takes the text of a node where it stands in a place, and what it makes of the text
builds a node of the same form. Of an expression this is said with arguments of calls that may
follow it. -/
def Node.ReadsBack (n : Node) : Place → Prop
  | .name => ∀ tail, Follows tail → (rule .identifier).Takes false (n.text.toList ++ tail)
      (afterBlanks false tail) (OnePair Pair.toIdentifier n)
  | .expression => ∀ tail left made, Follows tail →
      (many (rule .postfixOperator)).Takes false (afterBlanks false tail) left made →
      (Pattern.seq (rule .primary) (many (rule .postfixOperator))).Takes false
        (n.text.toList ++ tail) left (Joined (IsOperand n) made)
  | .block => ∀ tail, (rule .block).Takes false (n.text.toList ++ tail) (afterBlanks false tail)
      (OnePair Pair.toBlock n)
  | .statement => ∀ tail, (rule .statement).Takes false (n.text.toList ++ tail)
      (afterBlanks false tail) (OnePair Pair.toStatement n)

/-- An expression that begins as the grammar expects and is read back. -/
structure Node.Legible (n : Node) : Prop where
  begins : ∀ {tail}, leadingWord tail = [] → Begins (n.text.toList ++ tail)
  readsBack : n.ReadsBack .expression

section

variable {n : Node} {tail : List Char}

theorem Node.Legible.takes_operand (h : n.Legible) (hfollows : Follows tail)
    (hcalls : (many (rule .postfixOperator)).Takes false (afterBlanks false tail)
      (afterBlanks false tail) Nothing) :
    (rule .operand).Takes false (n.text.toList ++ tail) (afterBlanks false tail) (IsOperand n) := by
  have hbare := (h.begins hfollows.leadingWord_eq_nil).takes_noPrefix
  refine Takes.silent rfl rfl (hbare.before ((h.readsBack tail _ _ hfollows hcalls).mono ?_))
  rintro _ ⟨ps, _, rfl, hps, rfl⟩
  rwa [List.append_nil]

/-- The pair of an expression builds what its parts build. -/
theorem takes_expressionRule {cs left : List Char}
    (h : Rule.expression.body.Takes false cs left (IsExpression n)) :
    (rule .expression).Takes false cs left (OnePair Pair.toExpression n) := by
  refine h.rule rfl rfl fun span text inner hinner => ⟨_, rfl, ?_⟩
  rw [Pair.toExpression]
  exact hinner _

/-- An expression is taken up to its end. -/
theorem Node.Legible.takes_expression (h : n.Legible) (htail : Delimited tail) :
    (rule .expression).Takes false (n.text.toList ++ tail) (afterBlanks false tail)
      (OnePair Pair.toExpression n) := by
  have hoperand := h.takes_operand htail.follows htail.takes_noPostfix
  exact takes_expressionRule ((hoperand.after htail.takes_noInfix).mono fun _ hps =>
    hps.isExpression)

/-! ## Operands -/

/-- The pair of an expression in parentheses builds what the expression builds. -/
theorem OnePair.toPrimary {pairs : List Pair} (h : OnePair Pair.toExpression n pairs) :
    OnePair Pair.toPrimary n pairs := by
  obtain ⟨⟨r, span, text, inner⟩, rfl, hp⟩ := h
  refine ⟨_, rfl, ?_⟩
  by_cases hr : r = .expression
  · subst hr
    rw [Pair.toExpression] at hp
    rwa [Pair.toPrimary]
  · rw [Pair.toExpression] at hp
    · exact absurd hp (not_gives_malformed _)
    · rintro span text inner ⟨⟩
      exact hr rfl

/-- What is taken as an operand without arguments is read back. -/
theorem Node.readsBack_of_primary
    (h : ∀ tail, Follows tail → (rule .primary).Takes false (n.text.toList ++ tail)
      (afterBlanks false tail) (OnePair Pair.toPrimary n)) : n.ReadsBack .expression :=
  fun tail _ _ hfollows hcalls =>
    ((h tail hfollows).mono fun _ => IsOperand.primary).append hcalls

theorem takes_parenthesised {cs : List Char}
    (h : (rule .expression).Takes false cs (')' :: tail) (OnePair Pair.toExpression n))
    (hsolid : Solid cs) :
    (rule .primary).Takes false ("(".toList ++ cs) (afterBlanks false tail)
      (OnePair Pair.toPrimary n) := by
  have hword : leadingWord ("(".toList ++ cs) = [] :=
    (follows_sign (by decide) _).leadingWord_eq_nil
  exact Takes.silent rfl rfl ((refuses_wordOperand hword).2 _ _ ((takes_text "(" hsolid).before
    ((h.mono fun _ => OnePair.toPrimary).after (takes_word ")".toList false tail))))

/-! ### Words -/

theorem readsBack_name {id : NodeId} {name : String} (h : IsName name.toList) :
    (Node.identifier id name).ReadsBack .name := by
  intro tail hfollows
  refine (takes_identifier h hfollows.leadingWord_eq_nil).mono ?_
  rintro _ ⟨span, inner, rfl⟩
  refine ⟨_, rfl, gives_alloc span fun _ => ?_⟩
  exact congrArg (Node.identifier 0) String.ofList_toList

theorem readsBack_identifier {id : NodeId} {name : String} (h : IsName name.toList) :
    (Node.identifier id name).ReadsBack .expression := by
  refine Node.readsBack_of_primary fun tail hfollows => Takes.silent rfl rfl ?_
  have hword := leadingWord_append h.chars hfollows.leadingWord_eq_nil
  have hliterals := refuses_literals hword h.start (h.free "true" (by decide))
    (h.free "false" (by decide))
  have hif : (rule .ifExpression).Refuses false (name.toList ++ tail) :=
    Rule.refuses_otherStart rfl rfl (by rw [hword]; exact h.free "if" (by decide))
  have hfunction : (rule .functionLiteral).Refuses false (name.toList ++ tail) :=
    Rule.refuses_otherStart rfl rfl (by rw [hword]; exact h.free "fn" (by decide))
  have hname : (rule .identifier).Takes false (name.toList ++ tail) (afterBlanks false tail)
      (OnePair Pair.toPrimary (.identifier id name)) := by
    refine (takes_identifier h hfollows.leadingWord_eq_nil).mono ?_
    rintro _ ⟨span, inner, rfl⟩
    refine ⟨_, rfl, ?_⟩
    rw [Pair.toPrimary]
    exact gives_alloc span fun _ => congrArg (Node.identifier 0) String.ofList_toList
  exact hliterals.1.choice_takes (hliterals.2.choice_takes (hif.choice_takes
    (hfunction.choice_takes (hname.choice _))))

theorem readsBack_boolean {id : NodeId} {value : Bool} :
    (Node.boolean id value).ReadsBack .expression := by
  refine Node.readsBack_of_primary fun tail hfollows => Takes.silent rfl rfl ?_
  rw [Node.toList_text_boolean]
  have hinteger : (rule .integer).Refuses false (truthText value ++ tail) := by
    refine refuses_integer fun x hx => ?_
    cases value <;> (obtain rfl := Option.some.inj hx; rfl)
  have hboolean : (rule .boolean).Takes false (truthText value ++ tail) (afterBlanks false tail)
      (OnePair Pair.toPrimary (.boolean id value)) := by
    refine (takes_boolean value hfollows.leadingWord_eq_nil).mono ?_
    rintro _ ⟨span, inner, rfl⟩
    refine ⟨_, rfl, ?_⟩
    rw [Pair.toPrimary]
    refine gives_alloc span fun _ => congrArg (Node.boolean 0) ?_
    cases value <;> decide
  exact hinteger.choice_takes (hboolean.choice _)

theorem readsBack_integer {id : NodeId} {value : Nat} (h : value ≤ maxInteger) :
    (Node.integer id (Int64.ofNat value)).ReadsBack .expression := by
  refine Node.readsBack_of_primary fun tail hfollows => Takes.silent rfl rfl ?_
  rw [Node.toList_text_integer id h]
  refine Takes.choice (Takes.mono (takes_integer Nat.toDigits_ne_nil
    (fun x hx => isDigit_of_mem_toDigits hx) fun x hx => ?_) ?_) _
  · exact isDigit_eq_false_of_isNameChar
      (leadingWord_eq_nil_iff.mp hfollows.leadingWord_eq_nil x hx)
  · rintro _ ⟨span, inner, rfl⟩
    refine ⟨_, rfl, ?_⟩
    rw [Pair.toPrimary, decimalValue_toDigits, if_pos h]
    exact gives_alloc span fun _ => rfl

/-! ### Operators -/

theorem readsBack_prefixExpression {id : NodeId} {op : PrefixOp} (hn : n.Legible) :
    (Node.prefixExpression id op n).ReadsBack .expression := by
  refine Node.readsBack_of_primary fun tail _ => ?_
  rw [Node.toList_text_prefixExpression]
  have htail : Delimited (')' :: tail) := delimited_cons (by decide) tail
  have hclose : afterBlanks false (')' :: tail) = ')' :: tail := afterBlanks_sign (by decide) tail
  have hbegins := hn.begins htail.follows.leadingWord_eq_nil
  have hops := Takes.once (p := rule .prefixOperator) (by decide)
    (takes_prefixOperator op hbegins.solid) hbegins.takes_noPrefix
  have hoperand : (rule .operand).Takes false
      (op.text.toList ++ (n.text.toList ++ ')' :: tail)) (')' :: tail)
      fun pairs => ∃ p ps, pairs = p :: ps ∧ p.rule = op.rule ∧ IsOperand n ps := by
    rw [← hclose]
    refine Takes.silent rfl rfl (hops.seq
      (hn.readsBack (')' :: tail) _ _ htail.follows htail.takes_noPostfix) ?_)
    rintro _ _ ⟨p, rfl, hp⟩ ⟨ps, _, rfl, hps, rfl⟩
    exact ⟨p, ps, by rw [List.append_nil]; rfl, hp, hps⟩
  have hmore := htail.takes_noInfix
  rw [hclose] at hmore
  refine takes_parenthesised (takes_expressionRule ((hoperand.after hmore).mono ?_))
    (solid_prefixOp op _)
  rintro _ ⟨p, ps, rfl, hp, hps⟩
  exact hps.isExpression_prefix (hp ▸ op.prefixOp_rule) id

theorem readsBack_infixExpression {m : Node} {id : NodeId} {op : InfixOp} (hn : n.Legible)
    (hm : m.Legible) : (Node.infixExpression id op n m).ReadsBack .expression := by
  refine Node.readsBack_of_primary fun tail _ => ?_
  rw [Node.toList_text_infixExpression]
  have htail : Delimited (')' :: tail) := delimited_cons (by decide) tail
  have hclose : afterBlanks false (')' :: tail) = ')' :: tail := afterBlanks_sign (by decide) tail
  have hbegins := hm.begins htail.follows.leadingWord_eq_nil
  -- the left operand ends where the operator stands
  have hop : afterBlanks false (' ' :: (op.text.toList ++ ' ' :: (m.text.toList ++ ')' :: tail))) =
      op.text.toList ++ ' ' :: (m.text.toList ++ ')' :: tail) := by
    rw [afterBlanks_cons rfl, afterBlanks_infixOp]
  have hfollows : Follows (' ' :: (op.text.toList ++ ' ' :: (m.text.toList ++ ')' :: tail))) := by
    rw [Follows, hop, leadingWord_infixOp]
  have hleft := hn.takes_operand hfollows (takes_noPostfix fun x hx => by
    rw [hop] at hx
    cases op <;> (obtain rfl := Option.some.inj hx; decide))
  have hright := hm.takes_operand htail.follows htail.takes_noPostfix
  rw [hop] at hleft
  have hround : (Pattern.seq (rule .infixOperator) (rule .operand)).Takes false
      (op.text.toList ++ ' ' :: (m.text.toList ++ ')' :: tail)) (afterBlanks false (')' :: tail))
      fun pairs => ∃ p ps, pairs = p :: ps ∧ p.rule = op.rule ∧ IsOperand m ps := by
    refine (takes_infixOperator op hbegins.solid).seq hright ?_
    rintro _ ps ⟨p, rfl, hp⟩ hps
    exact ⟨p, ps, rfl, hp, hps⟩
  have hmore := Takes.once (p := Pattern.seq (rule .infixOperator) (rule .operand)) (by decide)
    hround htail.takes_noInfix
  rw [hclose] at hmore
  have hsolid := (hn.begins hfollows.leadingWord_eq_nil).solid
  refine takes_parenthesised (takes_expressionRule (hleft.seq hmore ?_)) hsolid
  rintro ps _ hps ⟨p, qs, rfl, hp, hqs⟩
  exact hps.isExpression_infix hqs (hp ▸ op.infixOp_rule) id

end

/-! ## Lists with commas -/

/-- What the rule matches, any number of times with commas between. -/
def Pattern.separated (r : Rule) : Pattern :=
  .maybe (.seq (rule r) (.many (.seq (text ",") (rule r))))

/-- A node that can be an item of a list with commas. -/
structure IsItem (r : Rule) (build : Pair → Build Part) (n : Node) : Prop where
  solid : ∀ tail, leadingWord tail = [] → Solid (n.text.toList ++ tail)
  takes : ∀ tail, Delimited tail → (rule r).Takes false (n.text.toList ++ tail)
    (afterBlanks false tail) (OnePair build n)

/-- How a list in parentheses goes on after an item. -/
def moreItems (more : List Node) (tail : List Char) : List Char :=
  (more.flatMap fun m => ", ".toList ++ m.text.toList) ++ ')' :: tail

section

variable {r : Rule} {build : Pair → Build Part} {nodes more : List Node} {tail : List Char}

theorem moreItems_cons (m : Node) (more : List Node) (tail : List Char) :
    moreItems (m :: more) tail = ",".toList ++ ' ' :: (m.text.toList ++ moreItems more tail) := by
  simp [moreItems]

theorem moreItems_eq_cons (more : List Node) (tail : List Char) :
    ∃ d ∈ delimiters, ∃ cs, moreItems more tail = d :: cs := by
  cases more with
  | nil => exact ⟨')', by decide, tail, rfl⟩
  | cons m more => exact ⟨',', by decide, _, moreItems_cons m more tail⟩

theorem delimited_moreItems (more : List Node) (tail : List Char) :
    Delimited (moreItems more tail) := by
  obtain ⟨d, hd, cs, hcs⟩ := moreItems_eq_cons more tail
  exact hcs ▸ delimited_cons hd cs

theorem afterBlanks_moreItems (more : List Node) (tail : List Char) :
    afterBlanks false (moreItems more tail) = moreItems more tail := by
  obtain ⟨d, hd, cs, hcs⟩ := moreItems_eq_cons more tail
  rw [hcs, afterBlanks_sign (isSign_of_mem_delimiters hd)]

theorem IsItem.takes_item {n : Node} (h : IsItem r build n) (more : List Node) (tail : List Char) :
    (rule r).Takes false (n.text.toList ++ moreItems more tail) (moreItems more tail)
      (OnePair build n) := by
  have htakes := h.takes _ (delimited_moreItems more tail)
  rwa [afterBlanks_moreItems] at htakes

theorem IsItem.solid_item {n : Node} (h : IsItem r build n) (more : List Node) (tail : List Char) :
    Solid (n.text.toList ++ moreItems more tail) :=
  h.solid _ (delimited_moreItems more tail).follows.leadingWord_eq_nil

theorem takes_moreItems (h : ∀ m ∈ more, IsItem r build m) (tail : List Char) :
    (many (Pattern.seq (text ",") (rule r))).Takes false (moreItems more tail) (')' :: tail)
      (EachPair build more) := by
  have hleast : 0 < (Pattern.seq (text ",") (rule r)).least := Nat.le_add_right 1 _
  induction more with
  | nil =>
    have hcomma : (text ",").Refuses false (')' :: tail) :=
      refuses_word (by simp [List.cons_prefix_cons])
    have hend := (hcomma.seq (rule r)).many
    rw [afterBlanks_sign (by decide)] at hend
    exact hend.mono fun ps hps => by rw [hps]; exact eachPair_nil
  | cons m more ih =>
    obtain ⟨hm, hmore⟩ := List.forall_mem_cons.mp h
    rw [moreItems_cons]
    have hcomma := takes_word ",".toList false (' ' :: (m.text.toList ++ moreItems more tail))
    rw [afterBlanks_cons rfl, (hm.solid_item more tail).afterBlanks_eq] at hcomma
    exact (hcomma.before (hm.takes_item more tail)).many hleast (ih hmore) fun _ _ => OnePair.append

/-- The items of a list are taken up to the closing parenthesis. -/
theorem takes_separated (h : ∀ n ∈ nodes, IsItem r build n)
    (hnone : (rule r).Refuses false (')' :: tail)) :
    (separated r).Takes false ((Node.joined ", " (Node.texts nodes)).toList ++ ')' :: tail)
      (')' :: tail) (EachPair build nodes) := by
  cases nodes with
  | nil =>
    have hempty := (hnone.seq (many (Pattern.seq (text ",") (rule r)))).maybe
    rw [afterBlanks_sign (by decide)] at hempty
    exact hempty.mono fun ps hps => by rw [hps]; exact eachPair_nil
  | cons n more =>
    obtain ⟨hn, hmore⟩ := List.forall_mem_cons.mp h
    rw [Node.toList_joined_cons, List.append_assoc]
    exact ((hn.takes_item more tail).seq (takes_moreItems hmore tail) fun _ _ =>
      OnePair.append).maybe

theorem solid_separated (h : ∀ n ∈ nodes, IsItem r build n) (tail : List Char) :
    Solid ((Node.joined ", " (Node.texts nodes)).toList ++ ')' :: tail) := by
  cases nodes with
  | nil => exact solid_cons (.inr (by decide))
  | cons n more =>
    rw [Node.toList_joined_cons, List.append_assoc]
    exact (h n List.mem_cons_self).solid_item more tail

theorem nothingBegins_paren (tail : List Char) : NothingBegins (')' :: tail) := by
  intro x hx
  obtain rfl := Option.some.inj hx
  decide

end

/-! ## Compound operands -/

section

variable {n m : Node} {tail : List Char}

theorem Node.Legible.isItem (h : n.Legible) : IsItem .expression Pair.toExpression n where
  solid _ htail := (h.begins htail).solid
  takes _ htail := h.takes_expression htail

/-- A name that begins solidly and is read back. -/
structure Node.LegibleName (n : Node) : Prop where
  solid : ∀ tail, Solid (n.text.toList ++ tail)
  readsBack : n.ReadsBack .name

theorem Node.LegibleName.isItem (h : n.LegibleName) :
    IsItem .identifier Pair.toIdentifier n where
  solid tail _ := h.solid tail
  takes _ htail := h.readsBack _ htail.follows

/-- A call is an operand with arguments after its callee. -/
theorem readsBack_call {id : NodeId} {arguments : List Node} (hn : n.Legible)
    (harguments : ∀ a ∈ arguments, a.Legible) :
    (Node.call id n arguments).ReadsBack .expression := by
  intro tail left made hfollows hcalls
  rw [Node.toList_text_call]
  have hitems : ∀ a ∈ arguments, IsItem .expression Pair.toExpression a :=
    fun a ha => (harguments a ha).isItem
  have hlist := takes_separated hitems (nothingBegins_paren tail).refuses_expression
  have hclose := takes_word ")".toList false tail
  have hargs : (rule .postfixOperator).Takes false ("(".toList ++
      ((Node.joined ", " (Node.texts arguments)).toList ++ ')' :: tail)) (afterBlanks false tail)
      fun pairs => ∃ span text inner, pairs = [.mk .callArgs span text inner] ∧
        EachPair Pair.toExpression arguments inner :=
    Takes.silent rfl rfl (Takes.rule rfl rfl
      ((takes_text "(" (solid_separated hitems tail)).before (hlist.after hclose))
      fun span text inner hinner => ⟨span, text, inner, rfl, hinner⟩)
  have hmore : (many (rule .postfixOperator)).Takes false ("(".toList ++
      ((Node.joined ", " (Node.texts arguments)).toList ++ ')' :: tail)) left
      fun pairs => ∃ span text inner qs, pairs = .mk .callArgs span text inner :: qs ∧
        EachPair Pair.toExpression arguments inner ∧ made qs := by
    refine hargs.many (by decide) hcalls ?_
    rintro _ qs ⟨span, text, inner, rfl, hinner⟩ hqs
    exact ⟨span, text, inner, qs, rfl, hinner, hqs⟩
  rw [show "(".toList ++ _ = _ from (afterBlanks_sign (x := '(') (by decide) _).symm] at hmore
  refine (hn.readsBack _ left _ (follows_sign (by decide) _) hmore).mono ?_
  rintro _ ⟨ps, _, rfl, hps, span, text, inner, qs, rfl, hinner, hqs⟩
  exact ⟨_, qs, List.append_cons ps _ qs, hps.call hinner.gives_toExpressions, hqs⟩

/-- A block that begins with its brace and is read back. -/
structure Node.LegibleBlock (n : Node) : Prop where
  brace : ∀ tail, ∃ cs, n.text.toList ++ tail = '\x7b' :: cs
  readsBack : n.ReadsBack .block

theorem Node.LegibleBlock.solid (h : n.LegibleBlock) (tail : List Char) :
    Solid (n.text.toList ++ tail) := by
  obtain ⟨cs, hcs⟩ := h.brace tail
  exact hcs ▸ solid_cons (.inr (by decide))

theorem Node.LegibleBlock.delimited (h : n.LegibleBlock) (tail : List Char) :
    Delimited (' ' :: (n.text.toList ++ tail)) := by
  obtain ⟨cs, hcs⟩ := h.brace tail
  exact hcs ▸ (delimited_cons (by decide) cs).space

/-- An expression before a block is taken up to the block. -/
theorem Node.LegibleBlock.takes_before (hm : m.LegibleBlock) (hn : n.Legible) (tail : List Char) :
    (rule .expression).Takes false (n.text.toList ++ ' ' :: (m.text.toList ++ tail))
      (m.text.toList ++ tail) (OnePair Pair.toExpression n) := by
  have htakes := hn.takes_expression (hm.delimited tail)
  rwa [afterBlanks_cons rfl, (hm.solid tail).afterBlanks_eq] at htakes

/-- The keyword, the condition and the consequence of a conditional, whatever comes after. -/
theorem takes_ifExpression {left : List Char} {made : List Pair → Prop} (hn : n.Legible)
    (hm : m.LegibleBlock)
    (hothers : (maybe (Pattern.seq (rule .kwElse) (rule .block))).Takes false
      (afterBlanks false tail) left made)
    {whole : Node}
    (hwhole : ∀ span text keyword condition consequence others,
      condition.toExpression.Gives (Part.HasForm n) → consequence.toBlock.Gives (Part.HasForm m) →
      made others → (Pair.toPrimary (.mk .ifExpression span text
        (keyword :: condition :: consequence :: others))).Gives (Part.HasForm whole)) :
    (rule .primary).Takes false
      ("if".toList ++ ' ' :: (n.text.toList ++ ' ' :: (m.text.toList ++ tail))) left
      (OnePair Pair.toPrimary whole) := by
  have hsolid := (hn.begins (hm.delimited tail).follows.leadingWord_eq_nil).solid
  have hword : leadingWord
      ("if".toList ++ ' ' :: (n.text.toList ++ ' ' :: (m.text.toList ++ tail))) = "if".toList := rfl
  have hliterals := refuses_literals hword ⟨'i', rfl, rfl⟩ (by decide) (by decide)
  have hbody := (Rule.kwIf.takes_words_spaced List.mem_cons_self hsolid).append
    ((hm.takes_before hn tail).append ((hm.readsBack tail).append hothers))
  have hif : (rule .ifExpression).Takes false
      ("if".toList ++ ' ' :: (n.text.toList ++ ' ' :: (m.text.toList ++ tail))) left
      (OnePair Pair.toPrimary whole) := by
    refine Takes.rule rfl rfl hbody ?_
    rintro span text _ ⟨_, _, rfl, ⟨_, _, rfl⟩, _, _, rfl, ⟨condition, rfl, hcondition⟩, _, others,
      rfl, ⟨consequence, rfl, hconsequence⟩, hmade⟩
    exact ⟨_, rfl, hwhole _ _ _ _ _ _ hcondition hconsequence hmade⟩
  exact Takes.silent rfl rfl (hliterals.1.choice_takes (hliterals.2.choice_takes (hif.choice _)))

theorem readsBack_ifExpression {id : NodeId} (hn : n.Legible) (hm : m.LegibleBlock) :
    (Node.ifExpression id n m none).ReadsBack .expression := by
  refine Node.readsBack_of_primary fun tail hfollows => ?_
  rw [Node.toList_text_ifExpression]
  have helse : (rule .kwElse).Refuses false (afterBlanks false tail) :=
    Rule.refuses_otherWord rfl (by rw [hfollows]; decide)
  have hothers := (helse.seq (rule .block)).maybe
  rw [afterBlanks_afterBlanks] at hothers
  refine takes_ifExpression hn hm hothers ?_
  rintro span text keyword condition consequence _ hcondition hconsequence rfl
  rw [Pair.toPrimary]
  refine hcondition.bind fun test htest => hconsequence.bind fun chosen hchosen => ?_
  exact gives_alloc _ fun _ => congrArg₂ (Node.ifExpression 0 · · none) htest hchosen

theorem readsBack_ifElseExpression {k : Node} {id : NodeId} (hn : n.Legible) (hm : m.LegibleBlock)
    (hk : k.LegibleBlock) : (Node.ifExpression id n m (some k)).ReadsBack .expression := by
  refine Node.readsBack_of_primary fun tail _ => ?_
  rw [Node.toList_text_ifElseExpression]
  have hspace : afterBlanks false (' ' :: ("else".toList ++ ' ' :: (k.text.toList ++ tail))) =
      "else".toList ++ ' ' :: (k.text.toList ++ tail) := rfl
  have hothers := ((Rule.kwElse.takes_words_spaced List.mem_cons_self (hk.solid tail)).append
    (hk.readsBack tail)).maybe
  rw [← hspace] at hothers
  refine takes_ifExpression hn hm hothers ?_
  rintro span text keyword condition consequence _ hcondition hconsequence
    ⟨_, _, rfl, ⟨_, _, rfl⟩, alternative, rfl, halternative⟩
  rw [List.singleton_append, Pair.toPrimary]
  refine hcondition.bind fun test htest => hconsequence.bind fun chosen hchosen =>
    halternative.bind fun other hother => gives_alloc _ fun _ => ?_
  simp only [Node.erase, htest.erase_eq, hchosen.erase_eq, hother.erase_eq]

theorem readsBack_functionLiteral {id : NodeId} {parameters : List Node}
    (hnames : ∀ p ∈ parameters, p.LegibleName) (hm : m.LegibleBlock) :
    (Node.functionLiteral id parameters m).ReadsBack .expression := by
  refine Node.readsBack_of_primary fun tail _ => ?_
  rw [Node.toList_text_functionLiteral]
  have hparameters : ∀ p ∈ parameters, IsItem .identifier Pair.toIdentifier p :=
    fun p hp => (hnames p hp).isItem
  have hnone : (rule .identifier).Refuses false (')' :: ' ' :: (m.text.toList ++ tail)) := by
    refine refuses_identifier ?_
    rw [(nothingBegins_paren _).leadingWord_eq_nil]
    exact isName_nil
  have hsolid := solid_separated hparameters (' ' :: (m.text.toList ++ tail))
  have hlist : (rule .parameters).Takes false
      ((Node.joined ", " (Node.texts parameters)).toList ++ ')' :: ' ' :: (m.text.toList ++ tail))
      (')' :: ' ' :: (m.text.toList ++ tail)) fun pairs => ∃ r span text names,
        pairs = [.mk r span text names] ∧ EachPair Pair.toIdentifier parameters names :=
    Takes.rule rfl rfl (takes_separated hparameters hnone) fun span text names hnames =>
      ⟨_, span, text, names, rfl, hnames⟩
  have hclose := takes_word ")".toList false (' ' :: (m.text.toList ++ tail))
  rw [afterBlanks_cons rfl, (hm.solid tail).afterBlanks_eq] at hclose
  have hrest := (takes_text "(" hsolid).before (hlist.append (hclose.before (hm.readsBack tail)))
  have hword : leadingWord ("fn".toList ++ ("(".toList ++
      ((Node.joined ", " (Node.texts parameters)).toList ++
        ')' :: ' ' :: (m.text.toList ++ tail)))) = "fn".toList := rfl
  have hliterals := refuses_literals hword ⟨'f', rfl, rfl⟩ (by decide) (by decide)
  have hif : (rule .ifExpression).Refuses false _ :=
    Rule.refuses_otherStart rfl rfl (hword.trans_ne (by decide))
  have hfunction : (rule .functionLiteral).Takes false ("fn".toList ++ ("(".toList ++
      ((Node.joined ", " (Node.texts parameters)).toList ++ ')' :: ' ' :: (m.text.toList ++ tail))))
      (afterBlanks false tail) (OnePair Pair.toPrimary (.functionLiteral id parameters m)) := by
    refine Takes.rule rfl rfl ((Rule.kwFn.takes_words List.mem_cons_self rfl).append hrest) ?_
    rintro span text _ ⟨_, _, rfl, ⟨_, _, rfl⟩, _, _, rfl, ⟨_, _, _, names, rfl, hnames⟩, body, rfl,
      hbody⟩
    refine ⟨_, rfl, ?_⟩
    rw [List.singleton_append, List.singleton_append, Pair.toPrimary]
    refine hnames.gives_toIdentifiers.bind fun parts hparts => hbody.bind fun code hcode => ?_
    exact gives_alloc _ fun _ => congrArg₂ (Node.functionLiteral 0) hparts hcode
  exact Takes.silent rfl rfl (hliterals.1.choice_takes (hliterals.2.choice_takes (hif.choice_takes
    (hfunction.choice _))))

/-! ## Blocks and statements -/

/-- How a list of statements goes on after a statement. -/
def moreStatements (sep : String) (more : List Node) (tail : List Char) : List Char :=
  (more.flatMap fun m => sep.toList ++ m.text.toList) ++ tail

/-- A statement whose text begins solidly and that is read back. -/
structure Node.LegibleStatement (n : Node) : Prop where
  solid : ∀ tail, Solid (n.text.toList ++ tail)
  readsBack : n.ReadsBack .statement

theorem takes_moreStatements {sep : String} {more : List Node}
    (hsep : ∀ cs, afterBlanks false (sep.toList ++ cs) = afterBlanks false cs)
    (h : ∀ m ∈ more, m.LegibleStatement) (htail : NothingBegins (afterBlanks false tail)) :
    (many (rule .statement)).Takes false (afterBlanks false (moreStatements sep more tail))
      (afterBlanks false tail) (EachPair Pair.toStatement more) := by
  induction more with
  | nil =>
    have hend := htail.refuses_statement.many
    rw [afterBlanks_afterBlanks] at hend
    exact hend.mono fun ps hps => by rw [hps]; exact eachPair_nil
  | cons m more ih =>
    obtain ⟨hm, hmore⟩ := List.forall_mem_cons.mp h
    have htext : moreStatements sep (m :: more) tail =
        sep.toList ++ (m.text.toList ++ moreStatements sep more tail) := by
      simp [moreStatements]
    rw [htext, hsep, (hm.solid _).afterBlanks_eq]
    exact (hm.readsBack _).many (by decide) (ih hmore) fun _ _ => OnePair.append

/-- Statements with blanks between them are taken one by one. -/
theorem takes_statements (sep : String) {nodes : List Node}
    (hsep : ∀ cs, afterBlanks false (sep.toList ++ cs) = afterBlanks false cs)
    (h : ∀ n ∈ nodes, n.LegibleStatement) (htail : NothingBegins (afterBlanks false tail)) :
    (many (rule .statement)).Takes false
      (afterBlanks false ((Node.joined sep (Node.texts nodes)).toList ++ tail))
      (afterBlanks false tail) (EachPair Pair.toStatement nodes) := by
  cases nodes with
  | nil => exact takes_moreStatements hsep h htail
  | cons n more =>
    have hone := takes_moreStatements hsep h htail
    rw [moreStatements, List.flatMap_cons, List.append_assoc, List.append_assoc, hsep] at hone
    rw [Node.toList_joined_cons, List.append_assoc]
    exact hone

theorem readsBack_block {id : NodeId} {statements : List Node}
    (h : ∀ s ∈ statements, s.LegibleStatement) : (Node.block id statements).ReadsBack .block := by
  intro tail
  obtain ⟨stop, hstop, htext⟩ := Node.toList_text_block id tail statements
  rw [htext]
  have hend : NothingBegins (afterBlanks false stop) := by
    rw [hstop]
    intro x hx
    obtain rfl := Option.some.inj hx
    decide
  have hstatements := takes_statements " " (fun cs => afterBlanks_cons rfl cs) h hend
  have hopen := takes_word "\x7b".toList false
    (' ' :: ((Node.joined " " (Node.texts statements)).toList ++ stop))
  have hclose := takes_word "\x7d".toList false tail
  rw [hstop] at hstatements
  rw [afterBlanks_cons rfl] at hopen
  refine Takes.rule rfl rfl (hopen.before (hstatements.after hclose)) fun span text inner hinner =>
    ⟨_, rfl, ?_⟩
  rw [Pair.toBlock, ← List.append_nil inner]
  refine (hinner.gives_toStatements gives_toStatements_nil).bind fun parts hforms => ?_
  exact gives_alloc _ fun _ => congrArg (Node.block 0) hforms

/-- A semicolon ends a statement. -/
theorem takes_semicolon (tail : List Char) :
    (maybe (text ";")).Takes false (';' :: tail) (afterBlanks false tail) Nothing :=
  (takes_word ";".toList false tail).maybe

/-- An expression is taken up to the semicolon, and the semicolon too. -/
theorem Node.Legible.takes_statementEnd (h : n.Legible) (tail : List Char) :
    (Pattern.seq (rule .expression) (maybe (Pattern.text ";"))).Takes false
      (n.text.toList ++ ';' :: tail) (afterBlanks false tail) (OnePair Pair.toExpression n) := by
  have hexpression := h.takes_expression (delimited_cons (d := ';') (by decide) tail)
  rw [afterBlanks_sign (by decide)] at hexpression
  exact hexpression.after (takes_semicolon tail)

theorem Node.Legible.solid_statementEnd (h : n.Legible) (tail : List Char) :
    Solid (n.text.toList ++ ';' :: tail) :=
  (h.begins (follows_sign (by decide) tail).leadingWord_eq_nil).solid

theorem readsBack_letStatement {id : NodeId} (hn : n.LegibleName) (hm : m.Legible) :
    (Node.letStatement id n m).ReadsBack .statement := by
  intro tail
  rw [Node.toList_text_letStatement]
  have hsign := takes_word "=".toList false (' ' :: (m.text.toList ++ ';' :: tail))
  rw [afterBlanks_cons rfl, (hm.solid_statementEnd tail).afterBlanks_eq] at hsign
  have hname := hn.readsBack (' ' :: ("=".toList ++ ' ' :: (m.text.toList ++ ';' :: tail)))
    (follows_sign (by decide) _).space
  have hequals : afterBlanks false ("=".toList ++ ' ' :: (m.text.toList ++ ';' :: tail)) =
      "=".toList ++ ' ' :: (m.text.toList ++ ';' :: tail) := afterBlanks_sign (by decide) _
  rw [afterBlanks_cons rfl, hequals] at hname
  have hbody := (Rule.kwLet.takes_words_spaced List.mem_cons_self (hn.solid _)).append
    (hname.append (hsign.before (hm.takes_statementEnd tail)))
  have hlet : (rule .letStatement).Takes false ("let".toList ++ ' ' :: (n.text.toList ++
      ' ' :: ("=".toList ++ ' ' :: (m.text.toList ++ ';' :: tail)))) (afterBlanks false tail)
      (OnePair Pair.toStatement (.letStatement id n m)) := by
    refine Takes.rule rfl rfl hbody ?_
    rintro span text _ ⟨_, _, rfl, ⟨_, _, rfl⟩, _, _, rfl, ⟨name, rfl, hname⟩, value, rfl, hvalue⟩
    refine ⟨_, rfl, ?_⟩
    rw [List.singleton_append, List.singleton_append, Pair.toStatement]
    refine hname.bind fun target htarget => hvalue.bind fun bound hbound => ?_
    exact gives_alloc _ fun _ => congrArg₂ (Node.letStatement 0) htarget hbound
  exact Takes.silent rfl rfl (hlet.choice _)

theorem readsBack_returnStatement {id : NodeId} (hn : n.Legible) :
    (Node.returnStatement id n).ReadsBack .statement := by
  intro tail
  rw [Node.toList_text_returnStatement]
  have hkeyword := Rule.kwReturn.takes_words_spaced List.mem_cons_self (hn.solid_statementEnd tail)
  have hbody := hkeyword.append (hn.takes_statementEnd tail)
  have hword : leadingWord ("return".toList ++ ' ' :: (n.text.toList ++ ';' :: tail)) =
      "return".toList := rfl
  have hlet : (rule .letStatement).Refuses false _ :=
    Rule.refuses_otherStart rfl rfl (hword.trans_ne (by decide))
  have hreturn : (rule .returnStatement).Takes false
      ("return".toList ++ ' ' :: (n.text.toList ++ ';' :: tail)) (afterBlanks false tail)
      (OnePair Pair.toStatement (.returnStatement id n)) := by
    refine Takes.rule rfl rfl hbody ?_
    rintro span text _ ⟨_, _, rfl, ⟨_, _, rfl⟩, value, rfl, hvalue⟩
    refine ⟨_, rfl, ?_⟩
    rw [List.singleton_append, Pair.toStatement]
    refine hvalue.bind fun result hresult => ?_
    exact gives_alloc _ fun _ => congrArg (Node.returnStatement 0) hresult
  exact Takes.silent rfl rfl (hlet.choice_takes (hreturn.choice _))

theorem readsBack_expressionStatement {id : NodeId} (hn : n.Legible) :
    (Node.expressionStatement id n).ReadsBack .statement := by
  intro tail
  rw [Node.toList_text_expressionStatement]
  have hbegins := hn.begins (follows_sign (x := ';') (by decide) tail).leadingWord_eq_nil
  have hlet : (rule .letStatement).Refuses false (n.text.toList ++ ';' :: tail) :=
    Rule.refuses_otherStart rfl rfl hbegins.notLet
  have hreturn : (rule .returnStatement).Refuses false (n.text.toList ++ ';' :: tail) :=
    Rule.refuses_otherStart rfl rfl hbegins.notReturn
  have hexpression : (rule .expressionStatement).Takes false (n.text.toList ++ ';' :: tail)
      (afterBlanks false tail) (OnePair Pair.toStatement (.expressionStatement id n)) := by
    refine Takes.rule rfl rfl (hn.takes_statementEnd tail) ?_
    rintro span text _ ⟨expression, rfl, hexpression⟩
    refine ⟨_, rfl, ?_⟩
    rw [Pair.toStatement]
    refine hexpression.bind fun inner hinner => ?_
    exact gives_alloc _ fun _ => congrArg (Node.expressionStatement 0) hinner
  exact Takes.silent rfl rfl (hlet.choice_takes (hreturn.choice_takes hexpression))

end

/-! ## Reading back -/

theorem Node.Grammatical.solid_name {n : Node} (h : n.Grammatical .name) (tail : List Char) :
    Solid (n.text.toList ++ tail) := by
  cases h with
  | @name id name hname =>
    obtain ⟨x, hx, hstart⟩ := hname.start
    obtain ⟨more, htext⟩ := List.head?_eq_some_iff.mp hx
    rw [text, htext]
    exact solid_cons (.inl (isNameChar_of_isNameStart hstart))

theorem Node.Grammatical.solid_statement {n : Node} (h : n.Grammatical .statement)
    (tail : List Char) : Solid (n.text.toList ++ tail) := by
  cases h with
  | letStatement hname hvalue =>
    rw [toList_text_letStatement]
    exact solid_cons (.inl rfl)
  | returnStatement hvalue =>
    rw [toList_text_returnStatement]
    exact solid_cons (.inl rfl)
  | expressionStatement hexpression =>
    rw [toList_text_expressionStatement]
    exact (hexpression.begins (follows_sign (by decide) tail).leadingWord_eq_nil).solid

theorem Node.Grammatical.brace {n : Node} (h : n.Grammatical .block) (tail : List Char) :
    ∃ cs, n.text.toList ++ tail = '\x7b' :: cs := by
  cases h with
  | @block id statements hstatements =>
    obtain ⟨stop, -, htext⟩ := toList_text_block id tail statements
    exact ⟨_, htext⟩

/-- **The canonical text of a node reads back** wherever the grammar allows the node. -/
theorem Node.Grammatical.readsBack {place : Place} {n : Node} (h : n.Grammatical place) :
    n.ReadsBack place := by
  induction h with
  | name hname => exact readsBack_name hname
  | identifier hname => exact readsBack_identifier hname
  | boolean => exact readsBack_boolean
  | integer hvalue => exact readsBack_integer hvalue
  | prefixExpression hright ihr => exact readsBack_prefixExpression ⟨hright.begins, ihr⟩
  | infixExpression hleft hright ihl ihr =>
    exact readsBack_infixExpression ⟨hleft.begins, ihl⟩ ⟨hright.begins, ihr⟩
  | ifExpression hcondition hconsequence ihc iht =>
    exact readsBack_ifExpression ⟨hcondition.begins, ihc⟩ ⟨hconsequence.brace, iht⟩
  | ifElseExpression hcondition hconsequence halternative ihc iht iha =>
    exact readsBack_ifElseExpression ⟨hcondition.begins, ihc⟩ ⟨hconsequence.brace, iht⟩
      ⟨halternative.brace, iha⟩
  | functionLiteral hparameters hbody ihp ihb =>
    exact readsBack_functionLiteral (fun p hp => ⟨(hparameters p hp).solid_name, ihp p hp⟩)
      ⟨hbody.brace, ihb⟩
  | call hfunction harguments ihf iha =>
    exact readsBack_call ⟨hfunction.begins, ihf⟩ fun a ha => ⟨(harguments a ha).begins, iha a ha⟩
  | block hstatements ih =>
    exact readsBack_block fun s hs => ⟨(hstatements s hs).solid_statement, ih s hs⟩
  | letStatement hname hvalue ihn ihv =>
    exact readsBack_letStatement ⟨hname.solid_name, ihn⟩ ⟨hvalue.begins, ihv⟩
  | returnStatement hvalue ih => exact readsBack_returnStatement ⟨hvalue.begins, ih⟩
  | expressionStatement hexpression ih =>
    exact readsBack_expressionStatement ⟨hexpression.begins, ih⟩

/-- A program is matched by its canonical text, and the statements are made of what is matched. -/
theorem recognise_text (id : NodeId) {statements : List Node}
    (h : ∀ s ∈ statements, s.Grammatical .statement) :
    ∃ span text inner next a,
      Rule.program.recognise (Node.program id statements).text.toList =
        .matched [.mk .program span text inner] next a ∧
      (Pair.toStatements inner).Gives (PartsHaveForm statements) := by
  have hlegible : ∀ s ∈ statements, s.LegibleStatement :=
    fun s hs => ⟨(h s hs).solid_statement, (h s hs).readsBack⟩
  have hnone : NothingBegins (afterBlanks false []) := fun x hx => nomatch hx
  have hstatements := takes_statements "\n" (fun cs => afterBlanks_cons rfl cs) hlegible hnone
  have hend : (rule .endOfInput).Takes false [] [] (OfRule .endOfInput) :=
    takes_finish.rule rfl rfl fun span text inner _ => ⟨_, rfl, rfl⟩
  have hprogram := hstatements.append hend
  rw [List.append_nil] at hprogram
  obtain ⟨_, next, a, hrun, ps, _, rfl, hps, ⟨r, span, text, parts⟩, rfl, hrule⟩ :=
    hprogram.from_start Attempts.empty
  obtain rfl : r = .endOfInput := hrule
  have hlast : (Pair.toStatements [.mk .endOfInput span text parts]).Gives (PartsHaveForm []) := by
    rw [Pair.toStatements]
    exact gives_toStatements_nil
  have hrecognise := Rule.outcome_matched (r := .program) rfl rfl hrun
  exact ⟨_, _, _, next, a, hrecognise, hps.gives_toStatements hlast⟩

/-- Reading the canonical text of a program makes a program of the same form. -/
theorem parseAt_text {n : Node} (h : n.IsProgram) (first : NodeId) :
    ∃ parsed, parseAt first n.text .program = .ok parsed ∧ parsed.root.erase = n.erase := by
  obtain ⟨id, statements, rfl, hstatements⟩ := h
  obtain ⟨span, text, inner, next, a, hrecognise, hgives⟩ := recognise_text id hstatements
  have hprogram : (Level.program.build (Node.program id statements).text.utf8ByteSize
      (.mk .program span text inner)).Gives (Part.HasForm (.program id statements)) :=
    hgives.bind fun parts hforms => gives_alloc _ fun _ => congrArg (Node.program 0) hforms
  obtain ⟨root, draft, hbuild, hform⟩ := hprogram ⟨first, #[]⟩
  refine ⟨⟨root.node, first, draft.spans⟩, ?_, hform⟩
  rw [parseAt, Level.rule, hrecognise]
  dsimp only
  rw [hbuild]
  rfl

/-- **Canonical texts read back.** Whatever has been read, at whatever level, its canonical text is
read as a program of the same form. -/
theorem sameForm_of_parseAt_text {first first' : NodeId} {source : String} {level : Level}
    {parsed : Parsed} (h : parseAt first source level = .ok parsed) :
    ∃ parsed', parseAt first' parsed.root.text .program = .ok parsed' ∧
      parsed'.root.sameForm parsed.root = true := by
  obtain ⟨parsed', hparsed, hform⟩ := parseAt_text (grammatical_of_parseAt h) first'
  exact ⟨parsed', hparsed, (Node.sameForm_iff_erase _ _).mpr hform⟩

/-- An `if` and a function literal that are called at once, with a prefix around a call, an empty
block and an `if` inside an `else`. -/
def directCalls : String := "if (f) {} else { if (g) { return 1 } }(-f(2)); fn(x) { -x }(3)"

theorem text_directCalls :
    (parseAt 0 directCalls .program).toOption.map (·.root.text) =
      some "if f { } else { if g { return 1; }; }((-f(2)));\nfn(x) { (-x); }(3);" := by
  cbv

theorem sameForm_of_parseAt_text_directCalls :
    ∃ parsed, parseAt 0 directCalls .program = .ok parsed ∧
      parsed.root.text = "if f { } else { if g { return 1; }; }((-f(2)));\nfn(x) { (-x); }(3);" ∧
      ∃ parsed', parseAt 9 parsed.root.text .program = .ok parsed' ∧
        parsed'.root.sameForm parsed.root = true := by
  have htext := text_directCalls
  cases hparsed : parseAt 0 directCalls .program with
  | error e =>
    rw [hparsed] at htext
    cases htext
  | ok parsed =>
    rw [hparsed] at htext
    exact ⟨parsed, rfl, Option.some.inj htext, sameForm_of_parseAt_text hparsed⟩

end TraceTree

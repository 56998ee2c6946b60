import Mathlib
import TraceTree.Proofs.Grammar.Attempts
import TraceTree.Proofs.Syntax.Canonical
import TraceTree.Proofs.Syntax.Renumbering

set_option autoImplicit false

/-! # The levels agree

Each level has an entry rule of its own, and builds a program from other pairs. But a text that has
one item is matched at all levels that the item belongs to, and at the same places: after a
statement nothing begins at the end of the text, so a repetition of statements ends there too; and no
other statement begins like an expression, so the choice between statements comes to the expression.
What is built from the item has the same form at each of these levels. -/

namespace TraceTree

open Pattern Build

/-! ## Statements -/

section

variable {c next : Cursor} {pairs : List Pair} {cs : List Char}

/-- No expression begins with the word that a `let` or a `return` statement begins with. -/
theorem refuses_expression_of_leadingWord {w : String} (hw : w ∈ ["let", "return"])
    (hword : leadingWord cs = w.toList) : (rule .expression).Refuses false cs := by
  have hkeyword : w ∈ keywords := by
    rcases List.mem_pair.mp hw with rfl | rfl <;> decide
  have hstart : ∃ x ∈ w.toList.head?, isNameStart x = true := by
    rcases List.mem_pair.mp hw with rfl | rfl
    exacts [⟨'l', rfl, by decide⟩, ⟨'r', rfl, by decide⟩]
  have hother : ∀ u ∈ ["true", "false", "if", "fn"], w.toList ≠ u.toList := by
    rcases List.mem_pair.mp hw with rfl | rfl <;> decide
  obtain ⟨x, hx, hletter⟩ := hstart
  have hhead : cs.head? = some x := by
    obtain ⟨more, rfl⟩ : w.toList <+: cs := hword ▸ List.takeWhile_prefix isNameChar
    rw [List.head?_append, hx]
    rfl
  have hname := isNameChar_of_isNameStart hletter
  obtain ⟨hinteger, hboolean⟩ := refuses_literals hword ⟨x, hx, hletter⟩
    (hother "true" (by decide)) (hother "false" (by decide))
  have hif : (rule .ifExpression).Refuses false cs :=
    Rule.refuses_otherStart rfl rfl (by rw [hword]; exact hother "if" (by decide))
  have hfunction : (rule .functionLiteral).Refuses false cs :=
    Rule.refuses_otherStart rfl rfl (by rw [hword]; exact hother "fn" (by decide))
  have hidentifier : (rule .identifier).Refuses false cs :=
    refuses_identifier fun h => h.free w hkeyword hword
  have hparen : (text "(").Refuses false cs := by
    refine refuses_word fun hprefix => ?_
    obtain ⟨more, rfl⟩ := hprefix
    obtain rfl := Option.some.inj hhead
    exact absurd hletter (by decide)
  have hprimary : (rule .primary).Refuses false cs :=
    Refuses.rule (hinteger.choice (hboolean.choice (hif.choice (hfunction.choice
      (hidentifier.choice (hparen.seq _))))))
  obtain ⟨more, rfl⟩ := List.head?_eq_some_iff.mp hhead
  refine refuses_expression (solid_cons (Or.inl hname)).afterBlanks_eq
    (refuses_prefixOperator fun y hy => ?_) hprimary
  obtain rfl := Option.some.inj hy
  exact ⟨ne_of_isNameChar hname rfl, ne_of_isNameChar hname rfl⟩

/-- Where an expression stands, no other statement does. -/
theorem Pattern.Matches.misses_statements (h : (rule .expression).Matches c pairs next) :
    (rule .letStatement).Misses c ∧ (rule .returnStatement).Misses c := by
  have hmisses : ∀ (r first : Rule) {p : Pattern} {w : String}, r.body = .seq (rule first) p →
      first.words = [w] → w ∈ ["let", "return"] → (rule r).Misses c := by
    intro r first p w hbody hwords hw
    refine Refuses.misses (Rule.refuses_otherStart hbody hwords fun hword => ?_)
    exact h.not_misses (refuses_expression_of_leadingWord hw hword).misses
  exact ⟨hmisses .letStatement .kwLet rfl rfl (by decide),
    hmisses .returnStatement .kwReturn rfl rfl (by decide)⟩

/-- The only pair made is one of a rule that makes pairs. -/
theorem Pattern.Matches.eq_mk {r : Rule} (h : (rule r).Matches c pairs next)
    (hloud : r.isSilent = false) (hatomic : r.isAtomic = false) :
    ∃ inner, r.body.Matches c inner next ∧
      pairs = [.mk r ⟨c.offset, next.offset⟩ (c.upTo next) inner] := (matches_loud hloud hatomic).mp h

/-- A statement makes one pair, of one of the three kinds of statements. -/
theorem Pattern.Matches.of_statement (h : (rule .statement).Matches c pairs next) :
    ∃ q, pairs = [q] ∧ q.rule ≠ .endOfInput ∧
      ((q.rule = .letStatement ∨ q.rule = .returnStatement) ∨
        (rule .expressionStatement).Matches c [q] next) := by
  rcases matches_choice.mp ((matches_silent rfl rfl).mp h) with hlet | ⟨-, h⟩
  · obtain ⟨inner, -, rfl⟩ := hlet.eq_mk rfl rfl
    exact ⟨_, rfl, nofun, Or.inl (Or.inl rfl)⟩
  rcases matches_choice.mp h with hreturn | ⟨-, hexpression⟩
  · obtain ⟨inner, -, rfl⟩ := hreturn.eq_mk rfl rfl
    exact ⟨_, rfl, nofun, Or.inl (Or.inr rfl)⟩
  · obtain ⟨inner, -, rfl⟩ := hexpression.eq_mk rfl rfl
    exact ⟨_, rfl, nofun, Or.inr hexpression⟩

end

/-! ## What the levels match -/

/-- What stands in a text at a level, up to its end. -/
def Level.items : Level → Pattern
  | program => .many (.rule .statement)
  | statement => .rule .statement
  | expression => .seq (.rule .expression) (.maybe (text ";"))

/-- A text is matched at a level: the items from its beginning on, and after them its end. -/
def Level.Matches (level : Level) (source : List Char) (items : List Pair) (last : Pair)
    (next : Cursor) : Prop :=
  ∃ mid, level.items.Matches (Cursor.ofText source).skip items mid ∧
    (Pattern.rule .endOfInput).Matches mid.skip [last] next

namespace Level

variable {level : Level} {source : List Char} {items pairs : List Pair} {q last : Pair}
  {next : Cursor}

/-- What stands in a text at a level, with the end of the text behind it. -/
theorem matches_items :
    (seq level.items (.rule .endOfInput)).Matches (Cursor.ofText source).skip pairs next ↔
      ∃ items last, level.Matches source items last next ∧ pairs = items ++ [last] := by
  constructor
  · intro h
    obtain ⟨items, mid, es, hitems, hend, rfl⟩ := matches_seq.mp h
    obtain ⟨inner, -, rfl⟩ := hend.eq_mk rfl rfl
    exact ⟨items, _, ⟨mid, hitems, hend⟩, rfl⟩
  · rintro ⟨items, last, ⟨mid, hitems, hend⟩, rfl⟩
    exact matches_seq.mpr ⟨items, mid, [last], hitems, hend, rfl⟩

theorem matches_body : level.rule.body.Matches (Cursor.ofText source) pairs next ↔
    ∃ items last, level.Matches source items last next ∧ pairs = items ++ [last] := by
  have hbody : level.rule.body.Matches (Cursor.ofText source) pairs next ↔
      (seq .start (seq level.items (.rule .endOfInput))).Matches (Cursor.ofText source) pairs
        next := by
    cases level with
    | program => rfl
    | statement => rfl
    | expression =>
      constructor
      · intro h
        obtain ⟨ps, mid, qs, hstart, hrest, rfl⟩ := matches_seq.mp h
        exact matches_seq.mpr ⟨ps, mid, qs, hstart, matches_seq_assoc.mp hrest, rfl⟩
      · intro h
        obtain ⟨ps, mid, qs, hstart, hrest, rfl⟩ := matches_seq.mp h
        exact matches_seq.mpr ⟨ps, mid, qs, hstart, matches_seq_assoc.mpr hrest, rfl⟩
  rw [hbody, ← matches_items]
  constructor
  · intro h
    obtain ⟨ps, c, rest, hstart, hrest, rfl⟩ := matches_seq.mp h
    obtain ⟨-, rfl, rfl⟩ := matches_start.mp hstart
    exact hrest
  · intro hrest
    exact matches_seq.mpr ⟨[], _, _, matches_start.mpr ⟨rfl, rfl, rfl⟩, hrest, rfl⟩

/-- The last pair is that of the end, and nothing is left where it stands. -/
theorem Matches.end_eq (h : level.Matches source items last next) :
    last.rule = .endOfInput ∧ ∃ mid, level.items.Matches (Cursor.ofText source).skip items mid ∧
      (Pattern.rule .endOfInput).Matches mid.skip [last] next ∧ mid.skip.rest = [] := by
  obtain ⟨mid, hitems, hend⟩ := h
  obtain ⟨inner, hbody, hpair⟩ := hend.eq_mk rfl rfl
  obtain rfl := (List.cons.inj hpair).1
  exact ⟨rfl, mid, hitems, hend, (matches_finish.mp hbody).1⟩

/-- **A single statement is a program.** After it nothing begins at the end of the text. -/
theorem Matches.toProgram (h : Level.statement.Matches source items last next) :
    Level.program.Matches source items last next := by
  obtain ⟨-, mid, hitems, hend, hrest⟩ := h.end_eq
  have hmisses : (Pattern.rule .statement).Misses mid.skip := by
    have hnothing : NothingBegins mid.skip.rest := by
      rw [hrest]
      exact fun x hx => nomatch hx
    exact hnothing.refuses_statement.misses
  exact ⟨mid, hitems.many_once hmisses, hend⟩

/-- **A program of one statement is a statement.** -/
theorem Matches.toStatement (h : Level.program.Matches source [q] last next) :
    Level.statement.Matches source [q] last next := by
  obtain ⟨mid, hitems, hend⟩ := h
  rcases Pattern.Matches.many_cases hitems with
    hnil | ⟨honce, -⟩ | ⟨ps, mid', qs, last', rest, hfirst, hsecond, heq⟩
  · cases hnil
  · exact ⟨mid, honce, hend⟩
  · -- two statements make two pairs
    obtain ⟨p, rfl, -⟩ := hfirst.of_statement
    obtain ⟨p', rfl, -⟩ := hsecond.of_statement
    cases (List.cons.inj heq).2

/-- **An expression is a statement.** No other statement begins like it. -/
theorem Matches.expressionStatement (h : Level.expression.Matches source items last next) :
    ∃ x span text, items = [x] ∧
      Level.statement.Matches source [.mk .expressionStatement span text [x]] last next := by
  obtain ⟨mid, hitems, hend⟩ := h
  obtain ⟨ps, c, qs, hexpression, hsemicolon, rfl⟩ := matches_seq.mp hitems
  obtain ⟨inner, -, rfl⟩ := hexpression.eq_mk rfl rfl
  obtain rfl := hsemicolon.eq_nil rfl
  have hstatement := (matches_loud (r := .expressionStatement) rfl rfl).mpr ⟨_, hitems, rfl⟩
  obtain ⟨hlet, hreturn⟩ := hexpression.misses_statements
  have hchoice := matches_choice.mpr (Or.inr ⟨hlet,
    matches_choice.mpr (Or.inr ⟨hreturn, hstatement⟩)⟩)
  exact ⟨_, _, _, rfl, mid, (matches_silent (r := .statement) rfl rfl).mpr hchoice, hend⟩

/-- **An expression statement is an expression.** -/
theorem Matches.toExpression (h : Level.statement.Matches source [q] last next)
    (hlet : q.rule ≠ .letStatement) (hreturn : q.rule ≠ .returnStatement) :
    ∃ x span text, q = .mk .expressionStatement span text [x] ∧
      Level.expression.Matches source [x] last next := by
  obtain ⟨mid, hitems, hend⟩ := h
  obtain ⟨q', hq, -, hkind⟩ := Pattern.Matches.of_statement hitems
  obtain rfl := (List.cons.inj hq).1
  have hexpression := (hkind.resolve_left (not_or_intro hlet hreturn))
  obtain ⟨inner, hbody, hpair⟩ := hexpression.eq_mk rfl rfl
  obtain rfl := (List.cons.inj hpair).1
  obtain ⟨ps, c, qs, hinner, hsemicolon, rfl⟩ := matches_seq.mp hbody
  obtain ⟨inner, -, rfl⟩ := hinner.eq_mk rfl rfl
  obtain rfl := hsemicolon.eq_nil rfl
  exact ⟨_, _, _, rfl, mid, hbody, hend⟩

end Level

/-! ## What the levels build -/

/-- The pair of the entry rule, for a text that is matched at a level. -/
def Level.entry (level : Level) (source : List Char) (items : List Pair) (last : Pair)
    (next : Cursor) : Pair :=
  .mk level.rule ⟨0, next.offset⟩ ((Cursor.ofText source).upTo next) (items ++ [last])

theorem Level.rule_loud (level : Level) :
    level.rule.isSilent = false ∧ level.rule.isAtomic = false := by
  cases level <;> exact ⟨rfl, rfl⟩

/-- What is matched by an entry rule is one pair, of a text that is matched at the level. -/
theorem Level.of_recognise {level : Level} {source : List Char} {pairs : List Pair} {next : Cursor}
    {a : Attempts} (h : level.rule.recognise source = .matched pairs next a) :
    ∃ items last, level.Matches source items last next ∧
      pairs = [level.entry source items last next] := by
  rw [Rule.recognise_eq] at h
  have hrule : (Pattern.rule level.rule).Matches (Cursor.ofText source) pairs next :=
    matches_of_run h
  obtain ⟨inner, hbody, rfl⟩ := hrule.eq_mk level.rule_loud.1 level.rule_loud.2
  obtain ⟨items, last, hmatches, rfl⟩ := Level.matches_body.mp hbody
  exact ⟨items, last, hmatches, rfl⟩

/-- A text that is matched at a level is matched by the entry rule. -/
theorem Level.Matches.recognise {level : Level} {source : List Char} {items : List Pair} {last : Pair}
    {next : Cursor} (h : level.Matches source items last next) :
    ∃ a, level.rule.recognise source = .matched [level.entry source items last next] next a := by
  have hbody := Level.matches_body.mpr ⟨items, last, h, rfl⟩
  rw [Rule.recognise_eq]
  exact (matches_loud level.rule_loud.1 level.rule_loud.2).mpr ⟨_, hbody, rfl⟩ .empty

/-- A source text is read when it is matched at its level and its items can be built. -/
theorem parseAt_eq_ok_iff {first : NodeId} {source : String} {level : Level} {parsed : Parsed} :
    parseAt first source level = .ok parsed ↔
      ∃ items last next, level.Matches source.toList items last next ∧
        ∃ root draft, level.build source.utf8ByteSize (level.entry source.toList items last next)
          ⟨first, #[]⟩ = .ok (root, draft) ∧ parsed = ⟨root.node, first, draft.spans⟩ := by
  constructor
  · intro h
    obtain ⟨p, next, a, hmatched, hbuild⟩ := matched_of_parseAt h
    obtain ⟨items, last, hmatches, hpair⟩ := Level.of_recognise hmatched
    obtain rfl := (List.cons.inj hpair).1
    exact ⟨items, last, next, hmatches, hbuild⟩
  · rintro ⟨items, last, next, hmatches, root, draft, hbuild, rfl⟩
    obtain ⟨a, hrecognise⟩ := hmatches.recognise
    rw [parseAt, hrecognise]
    dsimp only
    rw [hbuild]
    rfl

/-- The span of an expression statement does not matter for its form. -/
theorem Pair.carries_expressionStatement (x : Pair) (span span' : Part → Span) :
    Carries Part.Alike
      (x.toExpression >>= fun inner => alloc (span inner) (.expressionStatement · inner.node))
      (x.toExpression >>= fun inner => alloc (span' inner) (.expressionStatement · inner.node)) :=
  x.carries_toExpression.bind fun _ _ hinner =>
    carries_alloc _ _ fun _ _ => congrArg (Node.expressionStatement 0) hinner

/-- Only an expression statement is built into one. -/
theorem Pair.rule_of_expressionStatement {p : Pair} {draft draft' : Draft} {part : Part}
    (h : p.toStatement draft = .ok (part, draft')) {id : NodeId} {inner : Node}
    (hnode : part.node = .expressionStatement id inner) : p.rule = .expressionStatement := by
  unfold Pair.toStatement at h
  split at h
  · obtain ⟨target, _, -, hrest⟩ := of_bind h
    obtain ⟨bound, _, hlet⟩ := of_bind_alloc hrest
    cases hlet.symm.trans hnode
  · obtain ⟨result, _, hreturn⟩ := of_bind_alloc h
    cases hreturn.symm.trans hnode
  · rfl
  · cases h

namespace Level

/-- The statement that the only item of a text becomes at a level. -/
def buildItem : Level → Pair → Build Part
  | program, item | statement, item => item.toStatement
  | expression, item => do
    let inner ← item.toExpression
    Build.alloc inner.span (.expressionStatement · inner.node)

variable {level level' : Level} {source : List Char} {q last : Pair} {next : Cursor}

/-- A text with one item is built into a program of one statement. -/
theorem Matches.build_eq (h : level.Matches source [q] last next) (size : Nat) :
    ∃ span, level.build size (level.entry source [q] last next) =
      level.buildItem q >>= fun only => Build.alloc span (.program · [only.node]) := by
  cases level with
  | statement => exact ⟨_, rfl⟩
  | expression => exact ⟨_, (bind_assoc _ _ _).symm⟩
  | program =>
    obtain ⟨mid, hitems, -⟩ := h.toStatement
    obtain ⟨q', hq, hstatement, -⟩ := Pattern.Matches.of_statement hitems
    obtain rfl := (List.cons.inj hq).1
    refine ⟨⟨0, next.offset⟩, ?_⟩
    show (Pair.toStatements [q, last] >>= fun statements =>
      Build.alloc ⟨0, next.offset⟩ (.program · (nodesOf statements))) = _
    rw [Pair.toStatements_cons hstatement, Pair.toStatements_end h.end_eq.1, Pair.toStatements,
      bind_assoc]
    rfl

end Level

/-- Whatever number is the first, a source text is read at a level, with a tree of the form of
`root`. -/
def ReadsAs (source : String) (level : Level) (root : Node) : Prop :=
  ∀ first, ∃ parsed, parseAt first source level = .ok parsed ∧ parsed.root.sameForm root = true

section

variable {level level' : Level} {source : String} {q q' last last' : Pair} {next next' : Cursor}
  {first : NodeId} {root : Part} {draft : Draft}

/-- A text that is matched at a level is read as what was built elsewhere, if its pairs carry that. -/
theorem Level.Matches.readsAs_of_carries {items : List Pair} {build : Build Part}
    (h : level.Matches source.toList items last next)
    (hbuild : build ⟨first, #[]⟩ = .ok (root, draft))
    (hcarries : Carries Part.Alike build
      (level.build source.utf8ByteSize (level.entry source.toList items last next))) :
    ReadsAs source level root.node := by
  intro first'
  obtain ⟨root', draft', hbuild', halike⟩ := hcarries _ root draft hbuild ⟨first', #[]⟩
  exact ⟨_, parseAt_eq_ok_iff.mpr ⟨_, _, _, h, root', draft', hbuild', rfl⟩,
    (Node.sameForm_iff_erase _ _).mpr halike⟩

/-- What is read as one item at a level is read at another level where the item is built alike. -/
theorem Level.Matches.readsAs (h : level.Matches source.toList [q] last next)
    (hbuild : level.build source.utf8ByteSize (level.entry source.toList [q] last next)
      ⟨first, #[]⟩ = .ok (root, draft))
    (h' : level'.Matches source.toList [q'] last' next')
    (hitem : Carries Part.Alike (level.buildItem q) (level'.buildItem q')) :
    ReadsAs source level' root.node := by
  obtain ⟨span, heq⟩ := h.build_eq source.utf8ByteSize
  obtain ⟨span', heq'⟩ := h'.build_eq source.utf8ByteSize
  refine h'.readsAs_of_carries hbuild ?_
  rw [heq, heq']
  refine hitem.bind fun only only' honly => carries_alloc _ _ fun _ _ => ?_
  exact congrArg (fun n => Node.program 0 [n]) honly

/-- The item of a text is built into the only statement of the program. -/
theorem Level.Matches.of_root (h : level.Matches source.toList [q] last next)
    (hbuild : level.build source.utf8ByteSize (level.entry source.toList [q] last next)
      ⟨first, #[]⟩ = .ok (root, draft)) {id : NodeId} {s : Node}
    (hroot : root.node = .program id [s]) :
    ∃ only draft', level.buildItem q ⟨first, #[]⟩ = .ok (only, draft') ∧ only.node = s := by
  obtain ⟨span, heq⟩ := h.build_eq source.utf8ByteSize
  rw [heq] at hbuild
  obtain ⟨only, draft', hitem, halloc⟩ := Build.of_bind hbuild
  obtain ⟨rfl, -⟩ := Prod.mk.inj (Except.ok.inj halloc)
  exact ⟨only, draft', hitem, (List.cons.inj (Node.program.inj hroot).2).1⟩

end

/-- A program that is built of one statement has one item. -/
theorem Level.Matches.exists_eq_singleton {source : List Char} {items : List Pair} {last : Pair}
    {next : Cursor} (h : Level.program.Matches source items last next) {size : Nat}
    {draft draft' : Draft} {root : Part} {id : NodeId} {s : Node}
    (hbuild : Level.program.build size (Level.program.entry source items last next) draft =
      .ok (root, draft')) (hroot : root.node = .program id [s]) : ∃ q, items = [q] := by
  obtain ⟨statements, draft₁, hstatements, halloc⟩ := of_bind hbuild
  obtain ⟨rfl, -⟩ := Prod.mk.inj (Except.ok.inj halloc)
  have hone : nodesOf statements = [s] := (Node.program.inj hroot).2
  obtain ⟨hlast, mid, hitems, -⟩ := h.end_eq
  rcases Pattern.Matches.many_cases hitems with
    rfl | ⟨honce, -⟩ | ⟨ps, mid', qs, last', rest, hfirst, hsecond, rfl⟩
  · -- without items there are no statements
    rw [List.nil_append, Pair.toStatements_end hlast, Pair.toStatements] at hstatements
    obtain ⟨rfl, -⟩ := Prod.mk.inj (Except.ok.inj hstatements)
    cases hone
  · obtain ⟨q, rfl, -⟩ := honce.of_statement
    exact ⟨q, rfl⟩
  · -- each item is one statement
    obtain ⟨p, rfl, hp, -⟩ := hfirst.of_statement
    obtain ⟨p', rfl, hp', -⟩ := hsecond.of_statement
    simp only [List.cons_append, List.nil_append] at hstatements
    rw [Pair.toStatements_cons hp, Pair.toStatements_cons hp'] at hstatements
    obtain ⟨first, _, -, hmore⟩ := of_bind hstatements
    obtain ⟨others, _, hothers, hpure⟩ := of_bind hmore
    obtain ⟨second, _, -, hmore'⟩ := of_bind hothers
    obtain ⟨others', _, -, hpure'⟩ := of_bind hmore'
    obtain ⟨rfl, -⟩ := Prod.mk.inj (Except.ok.inj hpure)
    obtain ⟨rfl, -⟩ := Prod.mk.inj (Except.ok.inj hpure')
    cases (List.cons.inj hone).2

/-! ## Agreement -/

section

variable {source : String} {first : NodeId} {parsed : Parsed}

theorem readsAs_of_statement (h : parseAt first source .statement = .ok parsed) :
    ReadsAs source .program parsed.root := by
  obtain ⟨items, last, next, hmatches, root, draft, hbuild, rfl⟩ := parseAt_eq_ok_iff.mp h
  obtain ⟨mid, hitems, -⟩ := id hmatches
  obtain ⟨q, rfl, -⟩ := Pattern.Matches.of_statement hitems
  exact hmatches.readsAs hbuild hmatches.toProgram q.carries_toStatement

theorem readsAs_of_expression (h : parseAt first source .expression = .ok parsed) :
    ReadsAs source .statement parsed.root ∧ ReadsAs source .program parsed.root := by
  obtain ⟨items, last, next, hmatches, root, draft, hbuild, rfl⟩ := parseAt_eq_ok_iff.mp h
  obtain ⟨x, span, text, rfl, hstatement⟩ := hmatches.expressionStatement
  have hitem : Carries Part.Alike (Level.expression.buildItem x)
      (Pair.mk .expressionStatement span text [x]).toStatement := by
    rw [Pair.toStatement]
    exact x.carries_expressionStatement _ _
  exact ⟨hmatches.readsAs hbuild hstatement hitem,
    hmatches.readsAs hbuild hstatement.toProgram hitem⟩

theorem readsAs_of_program (h : parseAt first source .program = .ok parsed) {id : NodeId} {s : Node}
    (hroot : parsed.root = .program id [s]) :
    ReadsAs source .statement parsed.root ∧
      ∀ id' inner, s = .expressionStatement id' inner → ReadsAs source .expression parsed.root := by
  obtain ⟨items, last, next, hmatches, root, draft, hbuild, rfl⟩ := parseAt_eq_ok_iff.mp h
  obtain ⟨q, rfl⟩ := hmatches.exists_eq_singleton hbuild hroot
  refine ⟨hmatches.readsAs hbuild hmatches.toStatement q.carries_toStatement, ?_⟩
  rintro id' inner rfl
  obtain ⟨only, draft', honly, hnode⟩ := hmatches.of_root hbuild hroot
  have hrule := Pair.rule_of_expressionStatement honly hnode
  obtain ⟨x, span, text, rfl, hexpression⟩ :=
    hmatches.toStatement.toExpression (by rw [hrule]; nofun) (by rw [hrule]; nofun)
  refine hmatches.readsAs hbuild hexpression ?_
  show Carries Part.Alike (Pair.mk .expressionStatement span text [x]).toStatement _
  rw [Pair.toStatement]
  exact x.carries_expressionStatement _ _

end

/-- **The levels agree.** An expression is also read as a statement, and both are read as a program;
and a program of one statement is also read as a statement, and as an expression if the statement is
an expression statement. The trees have the same form each time. -/
theorem levels_agree (source : String) (first : NodeId) (parsed : Parsed) :
    (parseAt first source .expression = .ok parsed →
      ReadsAs source .statement parsed.root ∧ ReadsAs source .program parsed.root) ∧
    (parseAt first source .statement = .ok parsed → ReadsAs source .program parsed.root) ∧
    (parseAt first source .program = .ok parsed → ∀ id s, parsed.root = .program id [s] →
      ReadsAs source .statement parsed.root ∧
        ∀ id' inner, s = .expressionStatement id' inner →
          ReadsAs source .expression parsed.root) :=
  ⟨readsAs_of_expression, readsAs_of_statement, fun h _ _ => readsAs_of_program h⟩

/-- An expression with a semicolon and a comment after it. -/
def negatedCall : String := "-f(1) + 2; // done"

theorem text_negatedCall :
    (parseAt 0 negatedCall .expression).toOption.map (·.root.text) = some "((-f(1)) + 2);" := by
  cbv

theorem levels_agree_negatedCall :
    ∃ parsed, parseAt 0 negatedCall .expression = .ok parsed ∧
      parsed.root.text = "((-f(1)) + 2);" ∧ ReadsAs negatedCall .statement parsed.root ∧
        ReadsAs negatedCall .program parsed.root := by
  have htext := text_negatedCall
  cases hparsed : parseAt 0 negatedCall .expression with
  | error e =>
    rw [hparsed] at htext
    cases htext
  | ok parsed =>
    rw [hparsed] at htext
    exact ⟨parsed, rfl, Option.some.inj htext, (levels_agree negatedCall 0 parsed).1 hparsed⟩

end TraceTree

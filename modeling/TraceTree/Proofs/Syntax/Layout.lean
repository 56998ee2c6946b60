import TraceTree.Proofs.Grammar.Mirroring
import TraceTree.Proofs.Syntax.Levels

set_option autoImplicit false

/-! # Layout carries no meaning

A source text and the text that is left when its layout is stripped are matched side by side, at each
level: either both are matched, and the pairs say the same, or neither is (`Level.matches_or_not`).
From pairs that say the same, nodes of the same form are built or none at all. So a text is read at a
level just when the stripped text is, with a root of the same form (`parseAt_strip`). -/

namespace TraceTree

open Pattern Build

/-! ## Matching -/

theorem Level.isClear_items (level : Level) :
    (seq level.items (.rule .endOfInput)).isClear false = true := by
  cases level <;> decide

theorem Level.advances_items (level : Level) :
    (seq level.items (.rule .endOfInput)).Advances := by
  cases level <;> simp [items, Pattern.Advances, Pattern.least, Rule.least, Pattern.text]

/-- The first tokens of a text and of the stripped text begin where the same is left. -/
theorem mates_ofText (source : List Char) :
    Cursor.Mates false (Cursor.ofText source).skip (Cursor.ofText (stripped source)).skip :=
  Cursor.mates_onward false rfl

/-- **A text and the stripped text are matched alike.** -/
theorem Level.matches_or_not (level : Level) (source : List Char) :
    (∃ items last next items' last' next', level.Matches source items last next ∧
      level.Matches (stripped source) items' last' next' ∧
        PairsSimilar (items ++ [last]) (items' ++ [last'])) ∨
    ((∀ items last next, ¬ level.Matches source items last next) ∧
      ∀ items last next, ¬ level.Matches (stripped source) items last next) := by
  rcases matches_or_misses level.isClear_items level.advances_items (mates_ofText source) with
    ⟨pairs, next, pairs', next', h, h', hpairs⟩ | ⟨hmisses, hmisses'⟩
  · obtain ⟨items, last, hitems, rfl⟩ := matches_items.mp h
    obtain ⟨items', last', hitems', rfl⟩ := matches_items.mp h'
    exact .inl ⟨items, last, next, items', last', next', hitems, hitems', hpairs⟩
  · refine .inr ⟨fun items last next h => ?_, fun items last next h => ?_⟩
    · exact (matches_items.mpr ⟨items, last, h, rfl⟩).not_misses hmisses
    · exact (matches_items.mpr ⟨items, last, h, rfl⟩).not_misses hmisses'

/-! ## Building -/

/-- Entries that hold pairs that say the same are built into programs of the same form. -/
theorem Level.carries_build (level : Level) {parts parts' : List Pair}
    (h : PairsSimilar parts parts') (size size' : Nat) (span span' : Span)
    (text text' : List Char) :
    Carries Part.Alike (level.build size (.mk level.rule span text parts))
      (level.build size' (.mk level.rule span' text' parts')) := by
  cases level with
  | program =>
    refine (PairsSimilar.carries_toStatements h).bind fun _ _ hstatements => ?_
    exact carries_alloc _ _ fun _ _ => congrArg (Node.program 0) hstatements.eraseAll_eq
  | statement =>
    cases h with
    | nil => exact carries_malformed _ _
    | cons hitem _ =>
      refine hitem.carries_toStatement.bind fun _ _ honly => ?_
      exact carries_alloc _ _ fun _ _ => congrArg (fun n => Node.program 0 [n]) honly
  | expression =>
    cases h with
    | nil => exact carries_malformed _ _
    | cons hitem _ =>
      refine hitem.carries_toExpression.bind fun _ _ hinner => ?_
      refine Carries.bind (carries_alloc _ _ fun _ _ => ?_) fun _ _ honly => ?_
      · exact congrArg (Node.expressionStatement 0) hinner
      · exact carries_alloc _ _ fun _ _ => congrArg (fun n => Node.program 0 [n]) honly

/-! ## Reading -/

theorem toList_strip (source : String) : (strip source).toList = stripped source.toList :=
  String.toList_ofList

/-- What is read from one text is read from another, if the two are matched alike. -/
theorem Level.Matches.readsAs_of_similar {level : Level} {source source' : String}
    {items items' : List Pair} {last last' : Pair} {next next' : Cursor} {first : NodeId}
    {parsed : Parsed} (h : level.Matches source.toList items last next)
    (h' : level.Matches source'.toList items' last' next')
    (hpairs : PairsSimilar (items ++ [last]) (items' ++ [last']))
    (hparse : parseAt first source level = .ok parsed) : ReadsAs source' level parsed.root := by
  obtain ⟨a, hrecognise⟩ := h.recognise
  obtain ⟨items₁, last₁, next₁, h₁, root, draft, hbuild, rfl⟩ := parseAt_eq_ok_iff.mp hparse
  -- a text is matched in one way only
  obtain ⟨a₁, hrecognise₁⟩ := h₁.recognise
  have hentry := (Outcome.matched.inj (hrecognise₁.symm.trans hrecognise)).1
  rw [(List.cons.inj hentry).1] at hbuild
  exact h'.readsAs_of_carries hbuild (level.carries_build hpairs _ _ _ _ _ _)

/-- **Layout carries no meaning.** A source text is read at a level just when it is read with each
longest run of blanks and comments replaced by a single space, and the roots have the same form. -/
theorem parseAt_strip (source : String) (level : Level) (first first' : NodeId) :
    ((∃ parsed, parseAt first source level = .ok parsed) ↔
      ∃ parsed, parseAt first' (strip source) level = .ok parsed) ∧
    ∀ parsed parsed', parseAt first source level = .ok parsed →
      parseAt first' (strip source) level = .ok parsed' →
        parsed'.root.sameForm parsed.root = true := by
  have hstrip := toList_strip source
  rcases level.matches_or_not source.toList with
    ⟨items, last, next, items', last', next', h, h', hpairs⟩ | ⟨hnone, hnone'⟩
  · rw [← hstrip] at h'
    have hto : ∀ parsed, parseAt first source level = .ok parsed →
        ReadsAs (strip source) level parsed.root :=
      fun parsed => h.readsAs_of_similar h' hpairs
    have hof : ∀ parsed, parseAt first' (strip source) level = .ok parsed →
        ReadsAs source level parsed.root :=
      fun parsed => h'.readsAs_of_similar h (PairsSimilar.symm hpairs)
    refine ⟨⟨?_, ?_⟩, fun parsed parsed' hparse hparse' => ?_⟩
    · rintro ⟨parsed, hparse⟩
      obtain ⟨parsed', hparse', -⟩ := hto parsed hparse first'
      exact ⟨parsed', hparse'⟩
    · rintro ⟨parsed', hparse'⟩
      obtain ⟨parsed, hparse, -⟩ := hof parsed' hparse' first
      exact ⟨parsed, hparse⟩
    · obtain ⟨other, hother, hform⟩ := hto parsed hparse first'
      obtain rfl := Except.ok.inj (hparse'.symm.trans hother)
      exact hform
  · have hfails : ∀ parsed, parseAt first source level ≠ .ok parsed := fun parsed hparse => by
      obtain ⟨items, last, next, h, -⟩ := parseAt_eq_ok_iff.mp hparse
      exact hnone items last next h
    have hfails' : ∀ parsed, parseAt first' (strip source) level ≠ .ok parsed :=
      fun parsed hparse => by
        obtain ⟨items, last, next, h, -⟩ := parseAt_eq_ok_iff.mp hparse
        exact hnone' items last next (hstrip ▸ h)
    exact ⟨iff_of_false (not_exists.mpr hfails) (not_exists.mpr hfails'),
      fun parsed _ hparse => absurd hparse (hfails parsed)⟩

/-- A program with blanks and comments of each kind, and a slash that divides. -/
def halves : String :=
  "// halves\nlet half=fn(n)//of n\n\n\x7b\treturn n//slash\r\n/ 2 \x7d half (8)//"

theorem text_halves : (parseAt 0 halves .program).toOption.map (·.root.text) =
    some "let half = fn(n) \x7b return (n / 2); \x7d;\nhalf(8);" := by
  cbv

theorem parseAt_strip_halves :
    strip halves = " let half=fn(n) \x7b return n / 2 \x7d half (8) " ∧
      ∃ parsed parsed', parseAt 0 halves .program = .ok parsed ∧
        parseAt 7 (strip halves) .program = .ok parsed' ∧
          parsed'.root.sameForm parsed.root = true := by
  have htext := text_halves
  cases hparsed : parseAt 0 halves .program with
  | error e =>
    rw [hparsed] at htext
    cases htext
  | ok parsed =>
    obtain ⟨hiff, hform⟩ := parseAt_strip halves .program 0 7
    obtain ⟨parsed', hparsed'⟩ := hiff.mp ⟨parsed, hparsed⟩
    exact ⟨by cbv, parsed, parsed', rfl, hparsed', hform parsed parsed' hparsed hparsed'⟩

end TraceTree

import TraceTree.Proofs.Syntax.Settling

set_option autoImplicit false

/-! # What is refused, and where

A text that the grammar matches is refused exactly if it holds an integer out of range, and then the
leftmost such integer is reported: the pairs of a match begin in the order in which building passes
them. A text that the grammar does not match is refused at a place between two of its characters
(`parseAt_refusal`). -/

namespace TraceTree

/-! ## The order of pairs -/

/-- The pairs between two places, also those inside them, begin one after the other. -/
theorem Pair.Spread.starts {c d : Cursor} {ps : List Pair} (h : Pair.Spread c ps d) :
    (Pair.within ps).Pairwise (fun p q => p.span.start ≤ q.span.start) ∧
      ∀ p ∈ Pair.within ps, c.offset ≤ p.span.start ∧ p.span.start ≤ d.offset := by
  induction h with
  | nil h => exact ⟨.nil, fun _ hp => absurd hp List.not_mem_nil⟩
  | @cons c d e f r inner more hd hleast hinner hmore ihinner ihmore =>
    have hcd := hd.offset_le
    have hde := hinner.leadsTo.offset_le
    have hef := hmore.leadsTo.offset_le
    rw [Pair.within_cons]
    refine ⟨.cons (fun q hq => ?_) (List.pairwise_append.mpr ⟨ihinner.1, ihmore.1, ?_⟩), ?_⟩
    · show d.offset ≤ q.span.start
      rcases List.mem_append.mp hq with hq | hq
      · exact (ihinner.2 q hq).1
      · exact Nat.le_trans hde (ihmore.2 q hq).1
    · exact fun p hp q hq => Nat.le_trans (ihinner.2 p hp).2 (ihmore.2 q hq).1
    · refine List.forall_mem_cons.mpr ⟨⟨hcd, Nat.le_trans hde hef⟩, List.forall_mem_append.mpr ⟨?_, ?_⟩⟩
      · intro p hp
        obtain ⟨hlo, hhi⟩ := ihinner.2 p hp
        exact ⟨Nat.le_trans hcd hlo, Nat.le_trans hhi hef⟩
      · intro p hp
        obtain ⟨hlo, hhi⟩ := ihmore.2 p hp
        exact ⟨Nat.le_trans hcd (Nat.le_trans hde hlo), hhi⟩

/-- The pairs between two places, also those inside them, lie in the text. -/
theorem Pair.Spread.inText {source : String} {c d : Cursor} {ps : List Pair}
    (h : Pair.Spread c ps d) (hc : (Cursor.ofText source.toList).LeadsTo c) :
    ∀ p ∈ Pair.within ps, p.InText source := by
  induction h with
  | nil h => exact fun _ hp => absurd hp List.not_mem_nil
  | @cons c d e f r inner more hd hleast hinner hmore ihinner ihmore =>
    have hstart := hc.trans hd
    have hbetween : Pair.Between source c.offset (.mk r ⟨d.offset, e.offset⟩ (d.upTo e) inner :: more)
        f.offset := ⟨c, f, hc, .cons hd hleast hinner hmore, Nat.le_refl _, Nat.le_refl _⟩
    rw [Pair.within_cons]
    refine List.forall_mem_cons.mpr ⟨hbetween.cons.1, List.forall_mem_append.mpr ⟨?_, ?_⟩⟩
    · exact ihinner hstart
    · exact ihmore (hstart.trans hinner.leadsTo)

/-- The pair of an integer out of range that begins before all others of a list and inside it. -/
structure Pair.IsLeftmostOversized (source : String) (pairs : List Pair) (t : Pair) : Prop where
  mem : t ∈ Pair.within pairs
  oversized : t.Oversized
  leftmost : ∀ u ∈ Pair.within pairs, u.Oversized → t.span.start ≤ u.span.start
  slice_eq : t.span.slice source = String.ofList t.text

theorem Pair.Between.isLeftmost {source : String} {lo hi : Nat} {pairs : List Pair} {t : Pair}
    (h : Pair.Between source lo pairs hi) (ht : firstOversized? pairs = some t) :
    t.IsLeftmostOversized source pairs := by
  obtain ⟨c, d, hc, hspread, -, -⟩ := h
  obtain ⟨hover, before, after, heq, hbefore⟩ := List.find?_eq_some_iff_append.mp ht
  have hmem : t ∈ Pair.within pairs := heq ▸ List.mem_append_right _ List.mem_cons_self
  refine ⟨hmem, of_decide_eq_true hover, fun u hu hlarge => ?_, (hspread.inText hc t hmem).slice_eq⟩
  have hpairwise := hspread.starts.1
  rw [heq] at hu hpairwise
  rcases List.mem_append.mp hu with hu | hu
  · have hno := hbefore u hu
    rw [decide_eq_true hlarge] at hno
    cases hno
  · rcases List.mem_cons.mp hu with rfl | hu
    · exact Nat.le_refl _
    · exact List.rel_of_pairwise_cons (List.pairwise_append.mp hpairwise).2.1 hu

/-! ## What is refused -/

/-- **What is refused, and where.** If the entry rule matches, a source text is refused exactly if an
integer in it is out of range; what is reported is the leftmost such integer, with its text and its
span. In particular no pair is malformed. If the rule does not match, the place reported is one between
two characters. -/
theorem parseAt_refusal (first : NodeId) (source : String) (level : Level) :
    match level.rule.recognise source.toList with
    | .matched pairs _ _ =>
      ((∃ e, parseAt first source level = .error e) ↔ ∃ t ∈ Pair.within pairs, t.Oversized) ∧
      ∀ e, parseAt first source level = .error e → ∃ t : Pair, t.IsLeftmostOversized source pairs ∧
        e = ⟨.integerTooLarge (String.ofList t.text), t.span⟩
    | .failed _ =>
      ∃ expected o, parseAt first source level = .error ⟨.mismatch expected, ⟨o, o⟩⟩ ∧
        String.Pos.Raw.IsValid source ⟨o⟩ ∧ o ≤ source.utf8ByteSize
    | .exhausted => False := by
  cases hrun : level.rule.recognise source.toList with
  | exhausted =>
    rw [Rule.recognise_eq] at hrun
    exact level.rule.outcome_ne_exhausted false _ _ hrun
  | failed a =>
    have hlies := level.rule.lies_recognise source.toList
    rw [hrun] at hlies
    obtain ⟨d, hd, hoffset⟩ := hlies
    have hvalid : String.Pos.Raw.IsValid source ⟨a.offset⟩ := hoffset ▸ hd.isValid
    refine ⟨a.expected.map Rule.label, a.offset, ?_, hvalid, hvalid.le_utf8ByteSize⟩
    rw [parseAt, hrun]
  | matched pairs next a =>
    have hbetween := Rule.between_of_recognise hrun
    obtain ⟨p, rfl, hrule, hspan, hp⟩ := Level.sound_of_recognise hrun
    have hparse : parseAt first source level =
        level.build source.utf8ByteSize p ⟨first, #[]⟩ >>= fun built =>
          pure ⟨built.1.node, first, built.2.spans⟩ := by
      rw [parseAt, hrun]
    have hcounts : Draft.Counts first ⟨first, #[]⟩ := rfl
    have hbuild := Level.settles_build hp hrule hspan hcounts
    unfold Build.Settles at hbuild
    cases hfirst : firstOversized? [p] with
    | some t =>
      rw [hfirst] at hbuild
      have herror : parseAt first source level = .error t.tooLarge := by
        rw [hparse]
        exact congrArg (· >>= _) hbuild
      have ht := hbetween.isLeftmost hfirst
      refine ⟨⟨fun _ => ⟨t, ht.mem, ht.oversized⟩, fun _ => ⟨_, herror⟩⟩, fun e he => ⟨t, ht, ?_⟩⟩
      exact Except.error.inj (he.symm.trans herror)
    | none =>
      rw [hfirst] at hbuild
      obtain ⟨root, draft, hok, -⟩ := hbuild
      have hread : parseAt first source level = .ok ⟨root.node, first, draft.spans⟩ := by
        rw [hparse, hok]
        rfl
      have hnone := firstOversized?_eq_none.mp hfirst
      refine ⟨⟨?_, ?_⟩, ?_⟩
      · rintro ⟨e, he⟩
        cases he.symm.trans hread
      · rintro ⟨t, ht, hlarge⟩
        exact absurd hlarge (hnone t ht)
      · intro e he
        cases he.symm.trans hread

end TraceTree

import Mathlib.Data.String.Basic
import TraceTree.Proofs.Grammar.Attempts

set_option autoImplicit false

/-! # Where matches lie

Matching passes characters one after the other and never goes back behind the place where it began.
So the pairs of a match lie one after the other between the two places, those inside a pair lie
between its ends (`Pair.Spread`), and the place that a failure is reported at is one that was reached
(`Attempts.Reached`). All these places lie between two characters of the text. -/

namespace TraceTree

open String (utf8Len)

/-! ## Places one after the other -/

theorem length_le_utf8Len (cs : List Char) : cs.length ≤ utf8Len cs := by
  induction cs with
  | nil => exact Nat.le_refl _
  | cons x cs ih =>
    have hsize := x.utf8Size_pos
    rw [List.length_cons, String.utf8Len_cons]
    omega

/-- The second place comes at or after the first one, in the same text. -/
def Cursor.LeadsTo (c d : Cursor) : Prop :=
  ∃ passed, c.rest = passed ++ d.rest ∧ d.offset = c.offset + utf8Len passed

namespace Cursor

variable {c d e : Cursor}

theorem LeadsTo.refl (c : Cursor) : c.LeadsTo c := ⟨[], rfl, rfl⟩

theorem LeadsTo.trans (h : c.LeadsTo d) (h' : d.LeadsTo e) : c.LeadsTo e := by
  obtain ⟨ps, hrest, hoffset⟩ := h
  obtain ⟨qs, hrest', hoffset'⟩ := h'
  refine ⟨ps ++ qs, by rw [hrest, hrest', List.append_assoc], ?_⟩
  rw [hoffset', hoffset, String.utf8Len_append, Nat.add_assoc]

theorem LeadsTo.offset_le (h : c.LeadsTo d) : c.offset ≤ d.offset := by
  obtain ⟨ps, -, hoffset⟩ := h
  exact hoffset ▸ Nat.le_add_right _ _

theorem LeadsTo.length_le (h : c.LeadsTo d) : d.rest.length ≤ c.rest.length := by
  obtain ⟨ps, hrest, -⟩ := h
  rw [hrest, List.length_append]
  exact Nat.le_add_left _ _

/-- What was passed between two places. -/
theorem LeadsTo.upTo_append (h : c.LeadsTo d) : c.upTo d ++ d.rest = c.rest := by
  obtain ⟨ps, hrest, -⟩ := h
  simp [upTo, hrest]

theorem LeadsTo.offset_eq (h : c.LeadsTo d) : d.offset = c.offset + utf8Len (c.upTo d) := by
  have happend := h.upTo_append
  obtain ⟨ps, hrest, hoffset⟩ := h
  rw [hrest] at happend
  rw [List.append_cancel_right happend, hoffset]

/-- What is left says which place was reached. -/
theorem LeadsTo.eq_of_rest_eq (h : c.LeadsTo d) (h' : c.LeadsTo e) (hrest : d.rest = e.rest) :
    d = e := by
  have hoffset : d.offset = e.offset := by
    rw [h.offset_eq, h'.offset_eq, upTo, upTo, hrest]
  obtain ⟨offset, rest⟩ := d
  subst hoffset hrest
  rfl

/-- Each character that was passed has at least one byte. -/
theorem LeadsTo.offset_add_le (h : c.LeadsTo d) {n : Nat} (hn : d.rest.length + n ≤ c.rest.length) :
    c.offset + n ≤ d.offset := by
  obtain ⟨ps, hrest, hoffset⟩ := h
  have hbytes := length_le_utf8Len ps
  rw [hrest, List.length_append] at hn
  omega

theorem leadsTo_of_char? {accepts : Char → Bool} (h : c.char? accepts = some d) :
    c.LeadsTo d := by
  unfold char? at h
  split at h
  · cases h
  · next x cs hrest =>
    split at h
    · obtain rfl := Option.some.inj h
      exact ⟨[x], hrest, by simp⟩
    · cases h

theorem leadsTo_of_word? {w : List Char} (h : c.word? w = some d) : c.LeadsTo d := by
  induction w generalizing c with
  | nil =>
    obtain rfl := Option.some.inj h
    exact .refl c
  | cons x w ih =>
    obtain ⟨mid, hmid, hnext⟩ := Option.bind_eq_some_iff.mp h
    exact (leadsTo_of_char? hmid).trans (ih hnext)

theorem leadsTo_skipFrom (inComment : Bool) (offset : Nat) (cs : List Char) :
    LeadsTo ⟨offset, cs⟩ (skipFrom inComment offset cs) := by
  induction cs generalizing inComment offset with
  | nil => exact .refl _
  | cons x cs ih =>
    have hstep : LeadsTo ⟨offset, x :: cs⟩ ⟨offset + x.utf8Size, cs⟩ := ⟨[x], rfl, by simp⟩
    simp only [skipFrom]
    repeat' split
    · exact hstep.trans (ih _ _)
    · exact hstep.trans (ih _ _)
    · exact hstep.trans (ih _ _)
    · exact .refl _

theorem leadsTo_onward (atomic : Bool) (c : Cursor) : c.LeadsTo (c.onward atomic) := by
  cases atomic with
  | true => exact .refl c
  | false => exact leadsTo_skipFrom false c.offset c.rest

/-- Every cursor is a place in some text. -/
theorem exists_leadsTo (c : Cursor) : ∃ source : String, (ofText source.toList).LeadsTo c := by
  have hlength : utf8Len (List.replicate c.offset 'a') = c.offset := by
    induction c.offset with
    | zero => rfl
    | succ n ih => rw [List.replicate_succ, String.utf8Len_cons, ih]; rfl
  refine ⟨String.ofList (List.replicate c.offset 'a' ++ c.rest), _, String.toList_ofList, ?_⟩
  rw [hlength]
  exact (Nat.zero_add _).symm

end Cursor

/-! ## Pairs one after the other -/

/-- The pairs lie one after the other between two places, each with the span and the text of a part
of what is between them, at least as long as its rule demands, and with the pairs inside it lying in
the same way between its ends. -/
inductive Pair.Spread : Cursor → List Pair → Cursor → Prop where
  | nil {c d : Cursor} (h : c.LeadsTo d) : Spread c [] d
  | cons {c d e f : Cursor} {r : Rule} {inner more : List Pair} (h : c.LeadsTo d)
      (hleast : e.rest.length + r.least ≤ d.rest.length) (hinner : Spread d inner e)
      (hmore : Spread e more f) :
      Spread c (.mk r ⟨d.offset, e.offset⟩ (d.upTo e) inner :: more) f

namespace Pair.Spread

variable {c d e : Cursor} {ps qs : List Pair}

theorem leadsTo (h : Spread c ps d) : c.LeadsTo d := by
  induction h with
  | nil h => exact h
  | cons h _ _ _ ihinner ihmore => exact h.trans (ihinner.trans ihmore)

/-- Before the first pair there may be more. -/
theorem before (h : c.LeadsTo d) (hps : Spread d ps e) : Spread c ps e := by
  cases hps with
  | nil h' => exact .nil (h.trans h')
  | cons h' hleast hinner hmore => exact .cons (h.trans h') hleast hinner hmore

theorem append (hps : Spread c ps d) (hqs : Spread d qs e) : Spread c (ps ++ qs) e := by
  induction hps with
  | nil h => exact hqs.before h
  | cons h hleast hinner _ _ ihmore => exact .cons h hleast hinner (ihmore hqs)

end Pair.Spread

/-! ## What matching reaches -/

/-- The place where rules failed was reached from a given one. -/
def Attempts.Reached (start : Cursor) (a : Attempts) : Prop :=
  ∃ d, start.LeadsTo d ∧ a.offset = d.offset

/-- The pairs of an outcome lie between the place it is about and the place after the match, and all
places were reached from a given one. -/
def Outcome.Lies (start c : Cursor) : Outcome → Prop
  | .matched pairs next a => Pair.Spread c pairs next ∧ a.Reached start
  | .failed a => a.Reached start
  | .exhausted => True

/-- A meaning of the rules whose outcomes lie in the text. -/
def Call.Lies (start : Cursor) (call : Call) : Prop :=
  ∀ r atomic c a, start.LeadsTo c → a.Reached start → (call r atomic c a).Lies start c

section

variable {start c d : Cursor} {a : Attempts} {o : Outcome}

theorem Outcome.Lies.before (h : o.Lies start d) (hd : c.LeadsTo d) : o.Lies start c := by
  cases o with
  | matched pairs next a => exact ⟨h.1.before hd, h.2⟩
  | failed a => exact h
  | exhausted => trivial

theorem Outcome.Lies.prepend {pairs : List Pair} (hpairs : Pair.Spread c pairs d)
    (h : o.Lies start d) : (o.prepend pairs).Lies start c := by
  cases o with
  | matched more next a => exact ⟨hpairs.append h.1, h.2⟩
  | failed a => exact h
  | exhausted => trivial

theorem Outcome.lies_repeatStep {step : Cursor → Attempts → Outcome}
    (hstep : ∀ c a, start.LeadsTo c → a.Reached start → (step c a).Lies start c) (limit : Nat)
    (hc : start.LeadsTo c) (ha : a.Reached start) : (repeatStep step limit c a).Lies start c := by
  induction limit generalizing c a with
  | zero => trivial
  | succ limit ih =>
    have hfirst := hstep c a hc ha
    rw [repeatStep]
    generalize step c a = o at hfirst
    cases o with
    | matched pairs next b => exact (ih (hc.trans hfirst.1.leadsTo) hfirst.2).prepend hfirst.1
    | failed b => exact ⟨.nil (.refl c), hfirst⟩
    | exhausted => trivial

/-- The outcome of a pattern lies in the text if those of the rules do. -/
theorem Call.Lies.run {call : Call} (hcall : call.Lies start) (atomic : Bool) (p : Pattern)
    (hc : start.LeadsTo c) (ha : a.Reached start) :
    (p.run call atomic c a).Lies start c := by
  have hhere : (Outcome.matched [] c a).Lies start c := ⟨.nil (.refl c), ha⟩
  induction p generalizing c a with
  | start | finish =>
    rw [Pattern.run]
    split
    · exact hhere
    · exact ha
  | char accepts =>
    rw [Pattern.run]
    split
    · next hnext => exact ⟨.nil (Cursor.leadsTo_of_char? hnext), ha⟩
    · exact ha
  | word chars =>
    rw [Pattern.run]
    split
    · next hnext => exact ⟨.nil (Cursor.leadsTo_of_word? hnext), ha⟩
    · exact ha
  | rule r => exact hcall r atomic c a hc ha
  | seq p q ihp ihq =>
    have hp := ihp hc ha hhere
    rw [Pattern.run_seq]
    generalize p.run call atomic c a = o at hp
    cases o with
    | matched pairs next b =>
      have hnext := next.leadsTo_onward atomic
      have hstart := hc.trans (hp.1.leadsTo.trans hnext)
      exact ((ihq hstart hp.2 ⟨.nil (.refl _), hp.2⟩).before hnext).prepend hp.1
    | failed b => exact hp
    | exhausted => trivial
  | choice p q ihp ihq =>
    have hp := ihp hc ha hhere
    rw [Pattern.run]
    generalize p.run call atomic c a = o at hp
    cases o with
    | matched pairs next b => exact hp
    | failed b => exact ihq hc hp ⟨.nil (.refl c), hp⟩
    | exhausted => trivial
  | maybe p ih =>
    have hp := ih hc ha hhere
    rw [Pattern.run]
    generalize p.run call atomic c a = o at hp
    cases o with
    | matched pairs next b => exact hp
    | failed b => exact ⟨.nil (.refl c), hp⟩
    | exhausted => trivial
  | many p ih =>
    have hp := ih hc ha hhere
    rw [Pattern.run_many]
    generalize p.run call atomic c a = o at hp
    cases o with
    | matched pairs next b =>
      refine (Outcome.lies_repeatStep (fun d b hd hb => ?_) _ (hc.trans hp.1.leadsTo) hp.2).prepend
        hp.1
      have hround := d.leadsTo_onward atomic
      exact (ih (hd.trans hround) hb ⟨.nil (.refl _), hb⟩).before hround
    | failed b => exact ⟨.nil (.refl c), hp⟩
    | exhausted => trivial
  | «unless» p ih =>
    have hp := ih hc ha hhere
    rw [Pattern.run]
    generalize p.run call atomic c a = o at hp
    cases o with
    | matched pairs next b => exact ha
    | failed b => exact hhere
    | exhausted => trivial

/-- What is noted of a rule that failed was reached if the place where the rule began was. -/
theorem Attempts.Reached.record (ha : a.Reached start) (hc : start.LeadsTo c) (r : Rule)
    (before : Nat) : (a.record r c.offset before).Reached start := by
  unfold Attempts.record
  repeat' split
  · exact ha
  · exact ⟨c, hc, rfl⟩
  · exact ⟨c, hc, rfl⟩
  · exact ha

/-- **Matches lie in the text,** at every depth. -/
theorem Rule.lies_run (start : Cursor) (depth : Nat) : Call.Lies start (Rule.run depth) := by
  induction depth with
  | zero => exact fun _ _ _ _ _ _ => trivial
  | succ depth ih =>
    intro r atomic c a hc ha
    have hbody := ih.run (atomic || r.isAtomic) r.body hc ha
    rw [Rule.run]
    cases hrun : r.body.run (Rule.run depth) (atomic || r.isAtomic) c a with
    | matched pairs next b =>
      rw [hrun] at hbody
      have hleast := (Rule.consumes_run depth).run hrun
      have hbelow := r.least_le_body
      dsimp only
      split
      · exact hbody
      · exact ⟨.cons (.refl c) (by omega) hbody.1 (.nil (.refl next)), hbody.2⟩
    | failed b =>
      rw [hrun] at hbody
      dsimp only
      split
      · exact hbody
      · exact hbody.record hc r _
    | exhausted => trivial

end

/-- The pairs of a match lie where they were matched, whatever was attempted before. -/
theorem Call.spread_of_run {call : Call} {atomic : Bool} {p : Pattern} {c next : Cursor}
    {a b : Attempts} {pairs : List Pair} (hlies : ∀ start, call.Lies start)
    (hsettled : call.Settled) (h : p.run call atomic c a = .matched pairs next b) :
    Pair.Spread c pairs next := by
  obtain ⟨source, hc⟩ := c.exists_leadsTo
  have halike := hsettled.run atomic p c a .empty
  have hstart : Attempts.empty.Reached (Cursor.ofText source.toList) := ⟨_, .refl _, rfl⟩
  have hrun := (hlies (Cursor.ofText source.toList)).run atomic p hc hstart
  rw [h] at halike
  generalize p.run call atomic c .empty = o at halike hrun
  cases halike with
  | matched => exact hrun.1

theorem Rule.spread_of_run {depth : Nat} {r : Rule} {atomic : Bool} {c next : Cursor}
    {a b : Attempts} {pairs : List Pair} (h : Rule.run depth r atomic c a = .matched pairs next b) :
    Pair.Spread c pairs next :=
  Call.spread_of_run (p := .rule r) (lies_run · depth) (settled_run depth) h

theorem Pattern.leadsTo_of_run {p : Pattern} {atomic : Bool} {c next : Cursor} {a b : Attempts}
    {pairs : List Pair} (h : p.run Rule.outcome atomic c a = .matched pairs next b) :
    c.LeadsTo next :=
  have hlies (start : Cursor) : Call.Lies start Rule.outcome := fun r atomic c a =>
    Rule.lies_run start _ r atomic c a
  (Call.spread_of_run hlies Rule.settled_outcome h).leadsTo

theorem Rule.lies_recognise (r : Rule) (text : List Char) :
    (r.recognise text).Lies (Cursor.ofText text) (Cursor.ofText text) :=
  lies_run _ _ r false _ _ (.refl _) ⟨_, .refl _, rfl⟩

/-! ## Places in a string -/

section

variable {source : String} {c d : Cursor}

/-- A place in a text is a boundary between two of its characters. -/
theorem Cursor.LeadsTo.isValid (h : (Cursor.ofText source.toList).LeadsTo c) :
    String.Pos.Raw.IsValid source ⟨c.offset⟩ := by
  obtain ⟨passed, hrest, hoffset⟩ := h
  refine String.Pos.Raw.isValid_iff_exists_append.mpr ⟨.ofList passed, .ofList c.rest, ?_, ?_⟩
  · rw [← String.ofList_append, ← hrest]
    exact String.ofList_toList.symm
  · rw [hoffset, String.rawEndPos_ofList]
    exact congrArg String.Pos.Raw.mk (Nat.zero_add _)

/-- The end of a text comes after all its characters. -/
theorem Cursor.LeadsTo.offset_of_nil (h : (Cursor.ofText source.toList).LeadsTo c)
    (hc : c.rest = []) : c.offset = source.utf8ByteSize := by
  obtain ⟨passed, hrest, hoffset⟩ := h
  rw [hc, List.append_nil] at hrest
  rw [hoffset, ← hrest, ← String.utf8Len_toList]
  exact Nat.zero_add _

/-- Nothing that stands behind a span is inside it. -/
theorem Span.sliceFrom_of_le {s : Span} {offset : Nat} (h : s.stop ≤ offset) (cs : List Char) :
    s.sliceFrom offset cs = [] := by
  induction cs generalizing offset with
  | nil => rfl
  | cons x cs ih =>
    have hout : (s.start ≤ offset && offset < s.stop) = false := by simp; omega
    rw [sliceFrom, ih (Nat.le_add_right_of_le h), hout]
    rfl

theorem Span.sliceFrom_inside {s : Span} {offset : Nat} (inside after : List Char)
    (hstart : s.start ≤ offset) (hstop : s.stop = offset + utf8Len inside) :
    s.sliceFrom offset (inside ++ after) = inside := by
  induction inside generalizing offset with
  | nil => exact sliceFrom_of_le (Nat.le_of_eq hstop) after
  | cons x inside ih =>
    have hsize := x.utf8Size_pos
    rw [String.utf8Len_cons] at hstop
    have hin : (s.start ≤ offset && offset < s.stop) = true := by simp; omega
    rw [List.cons_append, sliceFrom, ih (by omega) (by omega), hin]
    rfl

theorem Span.sliceFrom_before {s : Span} {offset : Nat} (before cs : List Char)
    (hstart : s.start = offset + utf8Len before) :
    s.sliceFrom offset (before ++ cs) = s.sliceFrom s.start cs := by
  induction before generalizing offset with
  | nil =>
    rw [hstart]
    rfl
  | cons x before ih =>
    have hsize := x.utf8Size_pos
    rw [String.utf8Len_cons] at hstart
    have hout : (s.start ≤ offset && offset < s.stop) = false := by simp; omega
    rw [List.cons_append, sliceFrom, ih (by omega), hout]
    rfl

/-- The span between two places covers what was passed between them. -/
theorem Cursor.LeadsTo.slice_eq (hc : (Cursor.ofText source.toList).LeadsTo c) (h : c.LeadsTo d) :
    (Span.mk c.offset d.offset).slice source = String.ofList (c.upTo d) := by
  have hstop := h.offset_eq
  have hrest := h.upTo_append
  obtain ⟨passed, htext, hstart⟩ := hc
  refine congrArg String.ofList ?_
  rw [show source.toList = passed ++ c.rest from htext, Span.sliceFrom_before passed _ hstart,
    ← hrest]
  exact Span.sliceFrom_inside _ _ (Nat.le_refl _) hstop

end

end TraceTree

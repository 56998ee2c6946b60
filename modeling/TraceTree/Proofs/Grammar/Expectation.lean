import TraceTree.Proofs.Grammar.Places

set_option autoImplicit false

/-! # What matching leaves of attempts

Attempts are collected while a text is matched, whether the match succeeds or not. What is left of
them follows the pattern part by part (`Outcome.Ends`). The place of the attempts only moves forward,
and at one place they only become more (`Attempts.Grows`). So a rule that fails either adds itself to
the attempts from before it, or leaves them as its parts made them (`Attempts.Grows.record_cases`). It
leaves a mark in any case: exactly one attempt more at the place where it began, or attempts further
on (`Attempts.Marked`). -/

namespace TraceTree

/-! ## Attempts after a pattern -/

namespace Outcome

/-- After a match the attempts are as `after` says at the new place, and after a failure as `failing`
says. -/
def Ends (after : Cursor → Attempts → Prop) (failing : Attempts → Prop) : Outcome → Prop
  | .matched _ next a => after next a
  | .failed a => failing a
  | .exhausted => True

/-- Something holds of the attempts in any case. -/
abbrev Leaves (holds : Attempts → Prop) (o : Outcome) : Prop := o.Ends (fun _ => holds) holds

variable {after after' : Cursor → Attempts → Prop} {failing failing' : Attempts → Prop} {o : Outcome}

theorem Ends.mono (h : o.Ends after failing) (hafter : ∀ next a, after next a → after' next a)
    (hfailing : ∀ a, failing a → failing' a) : o.Ends after' failing' := by
  cases o with
  | matched pairs next a => exact hafter next a h
  | failed a => exact hfailing a h
  | exhausted => trivial

theorem Ends.and (h : o.Ends after failing) (h' : o.Ends after' failing') :
    o.Ends (fun next a => after next a ∧ after' next a) (fun a => failing a ∧ failing' a) := by
  cases o with
  | matched pairs next a => exact ⟨h, h'⟩
  | failed a => exact ⟨h, h'⟩
  | exhausted => trivial

theorem Ends.prepend (h : o.Ends after failing) (pairs : List Pair) :
    (o.prepend pairs).Ends after failing := by
  cases o <;> exact h

end Outcome

namespace Pattern

variable {call : Call} {atomic : Bool} {p q : Pattern} {c : Cursor} {a : Attempts}
  {after mid : Cursor → Attempts → Prop} {failing failing' : Attempts → Prop}

theorem ends_seq (hp : (p.run call atomic c a).Ends mid failing)
    (hq : ∀ next b, mid next b → (q.run call atomic (next.onward atomic) b).Ends after failing) :
    ((seq p q).run call atomic c a).Ends after failing := by
  rw [run_seq]
  cases hrun : p.run call atomic c a with
  | matched pairs next b =>
    rw [hrun] at hp
    exact (hq next b hp).prepend pairs
  | failed b =>
    rw [hrun] at hp
    exact hp
  | exhausted => trivial

theorem ends_choice (hp : (p.run call atomic c a).Ends after failing')
    (hq : ∀ b, failing' b → (q.run call atomic c b).Ends after failing) :
    ((choice p q).run call atomic c a).Ends after failing := by
  rw [run]
  cases hrun : p.run call atomic c a with
  | matched pairs next b =>
    rw [hrun] at hp
    exact hp
  | failed b =>
    rw [hrun] at hp
    exact hq b hp
  | exhausted => trivial

theorem ends_maybe (hp : (p.run call atomic c a).Ends after failing')
    (hfailing : ∀ b, failing' b → after c b) : ((maybe p).run call atomic c a).Ends after failing := by
  rw [run]
  cases hrun : p.run call atomic c a with
  | matched pairs next b =>
    rw [hrun] at hp
    exact hp
  | failed b =>
    rw [hrun] at hp
    exact hfailing b hp
  | exhausted => trivial

/-- What each round of a repetition keeps holds before the last round, which fails. -/
theorem ends_many (inv : Cursor → Attempts → Prop) {done : Attempts → Prop}
    (hstep : ∀ d b, inv d b → (p.run call atomic d b).Ends inv done)
    (honward : ∀ d b, inv d b → inv (d.onward atomic) b) (ha : inv c a) :
    ((many p).run call atomic c a).Ends (fun _ => done) failing := by
  have hrounds : ∀ limit d b, inv d b →
      (repeatStep (fun e => p.run call atomic (e.onward atomic)) limit d b).Ends (fun _ => done)
        failing := by
    intro limit
    induction limit with
    | zero => exact fun _ _ _ => trivial
    | succ limit ih =>
      intro d b hb
      have hround := hstep _ b (honward d b hb)
      rw [repeatStep]
      cases hrun : p.run call atomic (d.onward atomic) b with
      | matched pairs next b' =>
        rw [hrun] at hround
        exact (ih next b' hround).prepend pairs
      | failed b' =>
        rw [hrun] at hround
        exact hround
      | exhausted => trivial
  have hfirst := hstep c a ha
  rw [run_many]
  cases hrun : p.run call atomic c a with
  | matched pairs next b =>
    rw [hrun] at hfirst
    exact (hrounds _ next b hfirst).prepend pairs
  | failed b =>
    rw [hrun] at hfirst
    exact hfirst
  | exhausted => trivial

/-- What all rules in a pattern keep is kept by the pattern. What is attempted in order that a pattern
does not match is forgotten. -/
theorem leaves_run {holds : Attempts → Prop}
    (hcall : ∀ r ∈ p.rules, ∀ c a, holds a → (call r atomic c a).Leaves holds) (ha : holds a) :
    (p.run call atomic c a).Leaves holds := by
  induction p generalizing c a with
  | start | finish | char accepts | word chars =>
    simp only [run]
    split <;> exact ha
  | rule r => exact hcall r (by simp [rules]) c a ha
  | seq p q ihp ihq =>
    simp only [rules, List.mem_append] at hcall
    exact ends_seq (ihp (fun r hr => hcall r (.inl hr)) ha)
      fun _ _ hb => ihq (fun r hr => hcall r (.inr hr)) hb
  | choice p q ihp ihq =>
    simp only [rules, List.mem_append] at hcall
    exact ends_choice (ihp (fun r hr => hcall r (.inl hr)) ha)
      fun _ hb => ihq (fun r hr => hcall r (.inr hr)) hb
  | maybe p ih => exact ends_maybe (ih hcall ha) fun _ hb => hb
  | many p ih => exact ends_many (fun _ => holds) (fun _ _ hb => ih hcall hb) (fun _ _ hb => hb) ha
  | «unless» p ih =>
    rw [run]
    split <;> first | exact ha | trivial

end Pattern

/-- A rule ends as its body does, but for the note that it makes of its own failure. -/
theorem Rule.ends_run {depth : Nat} {r : Rule} {atomic : Bool} {c : Cursor} {a : Attempts}
    {after : Cursor → Attempts → Prop} {failing failing' : Attempts → Prop}
    (hbody : (r.body.run (Rule.run depth) (atomic || r.isAtomic) c a).Ends after failing)
    (hquiet : (atomic || r.isSilent) = true → ∀ b, failing b → failing' b)
    (hloud : (atomic || r.isSilent) = false → ∀ b, failing b →
      failing' (b.record r c.offset (a.countAt c.offset))) :
    (Rule.run (depth + 1) r atomic c a).Ends after failing' := by
  rw [Rule.run]
  cases hrun : r.body.run (Rule.run depth) (atomic || r.isAtomic) c a with
  | matched pairs next b =>
    rw [hrun] at hbody
    dsimp only
    split <;> exact hbody
  | failed b =>
    rw [hrun] at hbody
    dsimp only
    split
    · next h => exact hquiet h b hbody
    · next h => exact hloud (by simpa using h) b hbody
  | exhausted => trivial

/-- Inside an atomic rule nothing is noted. -/
theorem Rule.leaves_run_atomic (depth : Nat) (r : Rule) (c : Cursor) (a : Attempts) :
    (Rule.run depth r true c a).Leaves (· = a) := by
  induction depth generalizing r c a with
  | zero => trivial
  | succ depth ih =>
    have hbody : (r.body.run (Rule.run depth) (true || r.isAtomic) c a).Leaves (· = a) :=
      Pattern.leaves_run (fun s _ d b hb => hb ▸ ih s d b) rfl
    exact ends_run hbody (fun _ _ hb => hb) nofun

/-! ## Attempts become more -/

namespace Attempts

variable {a b b' : Attempts} {o : Nat}

/-- Later attempts are further on, or at the same place and come after the earlier ones. -/
structure Grows (a b : Attempts) : Prop where
  le : a.offset ≤ b.offset
  kept : a.offset = b.offset → a.rules <+: b.rules

theorem Grows.refl (a : Attempts) : a.Grows a := ⟨Nat.le_refl _, fun _ => List.prefix_refl _⟩

theorem Grows.trans (h : a.Grows b) (h' : b.Grows b') : a.Grows b' := by
  have hle := h.le
  have hle' := h'.le
  exact ⟨by omega, fun heq => (h.kept (by omega)).trans (h'.kept (by omega))⟩

/-- From `a` to `b` exactly one attempt was added at an offset, or attempts were made further on. -/
def Marked (a b : Attempts) (o : Nat) : Prop := b.countAt o = a.countAt o + 1 ∨ o < b.offset

/-- **A rule that fails** leaves the attempts of its parts if they made a mark, and else adds itself to
the attempts from before it. -/
theorem Grows.record_cases (h : a.Grows b) (r : Rule) (o : Nat) :
    (a.Marked b o ∧ b.record r o (a.countAt o) = b) ∨
    (a.offset = o ∧ b.record r o (a.countAt o) = ⟨o, a.rules ++ [r]⟩) ∨
    (a.offset < o ∧ b.record r o (a.countAt o) = ⟨o, [r]⟩) := by
  have hle := h.le
  unfold record
  by_cases hone : b.countAt o = a.countAt o + 1
  · exact .inl ⟨.inl hone, if_pos hone⟩
  rw [if_neg hone]
  by_cases hb : o = b.offset
  · rw [if_pos hb]
    by_cases ha : o = a.offset
    · have htake := List.prefix_iff_eq_take.mp (h.kept (by omega))
      exact .inr (.inl ⟨ha.symm, by rw [countAt, if_pos ha, ← htake]⟩)
    · exact .inr (.inr ⟨by omega, by rw [countAt, if_neg ha, List.take_zero, List.nil_append]⟩)
  rw [if_neg hb]
  by_cases hlt : b.offset < o
  · exact .inr (.inr ⟨by omega, if_pos hlt⟩)
  · exact .inl ⟨.inr (by omega), if_neg hlt⟩

theorem Grows.record (h : a.Grows b) (r : Rule) (o : Nat) :
    a.Grows (b.record r o (a.countAt o)) := by
  rcases h.record_cases r o with ⟨-, hr⟩ | ⟨ho, hr⟩ | ⟨ho, hr⟩ <;> rw [hr]
  · exact h
  · exact ⟨Nat.le_of_eq ho, fun _ => List.prefix_append _ _⟩
  · exact ⟨Nat.le_of_lt ho, fun heq => absurd heq (Nat.ne_of_lt ho)⟩

/-- What holds of the rules before and after the parts of a rule, and of the rule itself. -/
theorem Grows.forall_record {holds : Rule → Prop} (h : a.Grows b) (ha : ∀ s ∈ a.rules, holds s)
    (hb : ∀ s ∈ b.rules, holds s) {r : Rule} (hr : holds r) (o : Nat) :
    ∀ s ∈ (b.record r o (a.countAt o)).rules, holds s := by
  have hone : ∀ s ∈ [r], holds s := List.forall_mem_singleton.mpr hr
  rcases h.record_cases r o with ⟨-, h⟩ | ⟨-, h⟩ | ⟨-, h⟩ <;> rw [h]
  · exact hb
  · exact List.forall_mem_append.mpr ⟨ha, hone⟩
  · exact hone

theorem Grows.marked_record (h : a.Grows b) (r : Rule) (o : Nat) :
    a.Marked (b.record r o (a.countAt o)) o := by
  rcases h.record_cases r o with ⟨hm, hr⟩ | ⟨ho, hr⟩ | ⟨ho, hr⟩ <;> rw [hr]
  · exact hm
  · exact .inl (by simp [countAt, ho])
  · exact .inl (by simp [countAt, Nat.ne_of_gt ho])

/-- Nothing is added to a mark. -/
theorem Marked.record_eq (h : a.Marked b o) (r : Rule) : b.record r o (a.countAt o) = b := by
  unfold Attempts.record
  rcases h with hone | hlt
  · rw [if_pos hone]
  · have hcount : b.countAt o = 0 := if_neg (by omega)
    rw [if_neg (by omega), if_neg (by omega), if_neg (by omega)]

/-- A mark at a place lies at it or further on. -/
theorem Marked.le (h : a.Marked b o) : o ≤ b.offset := by
  rcases h with hone | hlt
  · unfold countAt at hone
    split at hone
    · next heq => exact Nat.le_of_eq heq
    · omega
  · exact Nat.le_of_lt hlt

end Attempts

section

variable {depth : Nat} {r : Rule} {atomic : Bool} {c : Cursor} {a : Attempts}

theorem Rule.grows_run (depth : Nat) (r : Rule) (atomic : Bool) (c : Cursor) (a : Attempts) :
    (Rule.run depth r atomic c a).Leaves a.Grows := by
  induction depth generalizing r atomic c a with
  | zero => trivial
  | succ depth ih =>
    have hbody : (r.body.run (Rule.run depth) (atomic || r.isAtomic) c a).Leaves a.Grows :=
      Pattern.leaves_run (fun s _ d b hb => (ih s _ d b).mono (fun _ _ => hb.trans) fun _ => hb.trans)
        (.refl a)
    exact ends_run hbody (fun _ _ hb => hb) fun _ _ hb => hb.record r _

theorem Pattern.grows_run (depth : Nat) (p : Pattern) (atomic : Bool) (c : Cursor) (a : Attempts) :
    (p.run (Rule.run depth) atomic c a).Leaves a.Grows :=
  leaves_run (fun s _ d b hb =>
    (Rule.grows_run depth s atomic d b).mono (fun _ _ => hb.trans) fun _ => hb.trans) (.refl a)

/-- What a rule notes of its own failure is noted of attempts that came after those before it. -/
theorem Rule.ends_run_of_grows {after : Cursor → Attempts → Prop} {failing failing' : Attempts → Prop}
    (hbody : (r.body.run (Rule.run depth) (atomic || r.isAtomic) c a).Ends after failing)
    (hquiet : (atomic || r.isSilent) = true → ∀ b, failing b → failing' b)
    (hloud : (atomic || r.isSilent) = false → ∀ b, failing b → a.Grows b →
      failing' (b.record r c.offset (a.countAt c.offset))) :
    (Rule.run (depth + 1) r atomic c a).Ends after failing' := by
  have hgrows := Pattern.grows_run depth r.body (atomic || r.isAtomic) c a
  have hboth := (hbody.and hgrows).mono (fun _ _ h => h.1) fun _ h => h
  exact ends_run hboth (fun h b hb => hquiet h b hb.1) fun h b hb => hloud h b hb.1 hb.2

/-- **A rule that fails leaves a mark,** unless it is silent. -/
theorem Rule.ends_marked (hloud : r.isSilent = false) :
    (Rule.run depth r false c a).Ends (fun _ _ => True) (a.Marked · c.offset) := by
  cases depth with
  | zero => trivial
  | succ depth =>
    have hbody := Pattern.grows_run depth r.body (false || r.isAtomic) c a
    exact ends_run (hbody.mono (fun _ _ _ => trivial) fun _ hb => hb) (by simp [hloud])
      fun _ b hb => hb.marked_record r _

/-- A match of a rule reaches as far beyond the place where it began as it has characters at least. -/
theorem Rule.ends_beyond :
    (Rule.run depth r atomic c a).Ends (fun next _ => c.offset + r.least ≤ next.offset)
      (fun _ => True) := by
  cases hrun : Rule.run depth r atomic c a with
  | matched pairs next b =>
    -- the place does not depend on what was attempted before, so let that be nothing
    have halike := settled_run depth r atomic c a ⟨c.offset, []⟩
    have hlies := lies_run c depth r atomic c ⟨c.offset, []⟩ (.refl c) ⟨c, .refl c, rfl⟩
    have hleast := consumes_run depth r atomic c a pairs next b hrun
    rw [hrun] at halike
    generalize Rule.run depth r atomic c ⟨c.offset, []⟩ = o at halike hlies
    cases halike with
    | matched => exact hlies.1.leadsTo.offset_add_le hleast
  | failed b => trivial
  | exhausted => trivial

end

/-! ## Signs -/

/-- A rule that takes a sign: it has no rules in it. -/
structure Rule.IsSign (r : Rule) : Prop where
  rules_eq : r.body.rules = []
  loud : r.isSilent = false
  least : r.least = 1

/-- Take note that signs are missing at an offset, one after the other. -/
def Attempts.noteAll (a : Attempts) (rs : List Rule) (o : Nat) : Attempts :=
  rs.foldl (fun b r => b.record r o (b.countAt o)) a

/-- Signs that are missing are noted together, or none of them is. -/
theorem Attempts.noteAll_cases (a : Attempts) (r : Rule) (rs : List Rule) (o : Nat) :
    (o < a.offset ∧ a.noteAll (r :: rs) o = a) ∨
    (a.offset = o ∧ a.noteAll (r :: rs) o = ⟨o, a.rules ++ r :: rs⟩) ∨
    (a.offset < o ∧ a.noteAll (r :: rs) o = ⟨o, r :: rs⟩) := by
  have hfirst : (o < a.offset ∧ a.noteAll [r] o = a) ∨
      (a.offset = o ∧ a.noteAll [r] o = ⟨o, a.rules ++ [r]⟩) ∨
      (a.offset < o ∧ a.noteAll [r] o = ⟨o, [r]⟩) := by
    rcases (Grows.refl a).record_cases r o with ⟨hone | hlt, hr⟩ | hcase
    · omega
    · exact .inl ⟨hlt, hr⟩
    · exact .inr hcase
  cases rs with
  | nil => exact hfirst
  | cons s rs =>
    have hrest := noteAll_cases (a.noteAll [r] o) s rs o
    have hmore : (a.noteAll [r] o).noteAll (s :: rs) o = a.noteAll (r :: s :: rs) o := rfl
    rw [hmore] at hrest
    rcases hfirst with ⟨ho, hr⟩ | ⟨ho, hr⟩ | ⟨ho, hr⟩ <;> rw [hr] at hrest
    · rcases hrest with hrest | ⟨ho', -⟩ | ⟨ho', -⟩
      · exact .inl hrest
      · omega
      · omega
    · exact .inr (.inl ⟨ho, by simpa using hrest⟩)
    · exact .inr (.inr ⟨ho, by simpa using hrest⟩)

section

variable {depth : Nat} {r : Rule} {rs : List Rule} {c : Cursor} {a : Attempts}

theorem Rule.IsSign.ends_run (h : r.IsSign) :
    (Rule.run depth r false c a).Ends (fun next b => c.offset < next.offset ∧ b = a)
      (· = a.noteAll [r] c.offset) := by
  have hends : (Rule.run depth r false c a).Ends (fun _ b => b = a) (· = a.noteAll [r] c.offset) := by
    cases depth with
    | zero => trivial
    | succ depth =>
      have hbody : (r.body.run (Rule.run depth) (false || r.isAtomic) c a).Leaves (· = a) :=
        Pattern.leaves_run (by simp [h.rules_eq]) rfl
      exact Rule.ends_run hbody (by simp [h.loud]) fun _ _ hb => hb ▸ rfl
  have hbeyond : (Rule.run depth r false c a).Ends (fun next _ => c.offset + r.least ≤ next.offset)
      (fun _ => True) := Rule.ends_beyond
  rw [h.least] at hbeyond
  exact (hends.and hbeyond).mono (fun _ _ hb => ⟨hb.2, hb.1⟩) fun _ hb => hb.1

/-- **A choice of signs** notes all of them if it fails. If it matches, it goes on to a further place,
and what it has noted is not further on than the place where it began. -/
theorem Pattern.ends_signs (h : ∀ s ∈ r :: rs, s.IsSign) :
    ((oneOf (.rule r) (rs.map .rule)).run (Rule.run depth) false c a).Ends
      (fun next b => c.offset < next.offset ∧ (b = a ∨ b.offset ≤ c.offset))
      (· = a.noteAll (r :: rs) c.offset) := by
  obtain ⟨hr, hrs⟩ := List.forall_mem_cons.mp h
  induction rs generalizing r a with
  | nil => exact hr.ends_run.mono (fun _ _ hb => ⟨hb.1, .inl hb.2⟩) fun _ hb => hb
  | cons s rs ih =>
    refine ends_choice (hr.ends_run.mono (fun _ _ hb => ⟨hb.1, .inl hb.2⟩) fun _ hb => hb) ?_
    rintro b rfl
    obtain ⟨hs, hrs'⟩ := List.forall_mem_cons.mp hrs
    refine (ih hrs hs hrs').mono (fun next b hb => ⟨hb.1, ?_⟩) fun _ hb => hb
    rcases hb.2 with rfl | hle
    · rcases a.noteAll_cases r [] c.offset with ⟨-, hb⟩ | ⟨-, hb⟩ | ⟨-, hb⟩ <;> rw [hb]
      · exact .inl rfl
      · exact .inr (Nat.le_refl _)
      · exact .inr (Nat.le_refl _)
    · exact .inr hle

end

end TraceTree

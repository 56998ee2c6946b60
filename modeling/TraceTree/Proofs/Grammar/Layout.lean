import TraceTree.Proofs.Grammar.Matching

set_option autoImplicit false

/-! # Layout

Blanks and comments may stand between any two tokens, and how many of them do makes no difference.
The layout of a text is stripped when each longest run of blanks and comments has been replaced by
one space. Stripping keeps every place where a token can begin: passing blanks and then stripping
comes to the same as stripping and then passing blanks (`afterBlanks_stripped`), and no characters
that are kept form a comment that was none. -/

namespace TraceTree

/-! ## Stripping -/

/-- What the characters up to a place end with. -/
inductive Layout where
  | token
  | blanks
  | comment

/-- A text with one space for each run of blanks and comments. A run that has begun already gets no
other space. -/
def stripFrom : Layout → List Char → List Char
  | _, [] => []
  | .token, x :: cs =>
    if isSpace x then ' ' :: stripFrom .blanks cs
    else if x == '/' && cs.head? == some '/' then ' ' :: stripFrom .comment cs
    else x :: stripFrom .token cs
  | .blanks, x :: cs =>
    if isSpace x then stripFrom .blanks cs
    else if x == '/' && cs.head? == some '/' then stripFrom .comment cs
    else x :: stripFrom .token cs
  | .comment, x :: cs => stripFrom (if x == '\n' then .blanks else .comment) cs

/-- The characters of a text without its layout. -/
def stripped (cs : List Char) : List Char := stripFrom .token cs

/-- A text with a single space for each longest run of blanks and comments. -/
def strip (source : String) : String := String.ofList (stripped source.toList)

example : strip "f //\n\r//g\n\t(a/ /b)//" = "f (a/ /b) " := by decide

/-- A blank or a comment begins where the text does. -/
def beginsBlank : List Char → Bool
  | [] => false
  | x :: cs => isSpace x || (x == '/' && cs.head? == some '/')

/-- A character that a run of blanks and comments can begin with. -/
def separates (x : Char) : Bool := isSpace x || x == '/'

section

variable {x : Char} {cs : List Char}

theorem separates_of_beginsBlank (h : beginsBlank (x :: cs) = true) : separates x = true := by
  rw [beginsBlank, Bool.or_eq_true, Bool.and_eq_true] at h
  rw [separates, Bool.or_eq_true]
  exact h.imp_right And.left

/-- Where no blank begins, the first character is kept. -/
theorem stripped_token (h : beginsBlank (x :: cs) = false) :
    stripped (x :: cs) = x :: stripped cs := by
  obtain ⟨hspace, hcomment⟩ := Bool.or_eq_false_iff.mp h
  rw [stripped, stripFrom, hspace, hcomment]
  rfl

/-- What goes on after the beginning of a run is what stands after the run. -/
theorem stripFrom_skipFrom (inComment : Bool) (offset : Nat) (cs : List Char) :
    stripFrom (if inComment then .comment else .blanks) cs =
      stripped (Cursor.skipFrom inComment offset cs).rest := by
  induction cs generalizing inComment offset with
  | nil => cases inComment <;> rfl
  | cons x cs ih =>
    cases inComment with
    | true =>
      have hnext : (if x == '\n' then Layout.blanks else .comment) =
          if x != '\n' then .comment else .blanks := by
        cases hx : x == '\n' <;> simp [bne, hx]
      simp only [stripFrom, Cursor.skipFrom, if_true]
      rw [hnext]
      exact ih _ _
    | false =>
      simp only [stripFrom, Cursor.skipFrom, Bool.false_eq_true, if_false]
      split
      · exact ih false _
      · split
        · exact ih true _
        · next hspace hcomment =>
          refine (stripped_token ?_).symm
          rw [beginsBlank, Bool.eq_false_iff.mpr hspace, Bool.eq_false_iff.mpr hcomment]
          rfl

/-- A run that begins with the text becomes one space. -/
theorem stripped_blank (h : beginsBlank cs = true) :
    stripped cs = ' ' :: stripped (afterBlanks false cs) := by
  match cs with
  | [] => cases h
  | x :: cs =>
    simp only [stripped, stripFrom, afterBlanks, Cursor.skipFrom, Bool.false_eq_true, if_false]
    split
    · exact congrArg _ (stripFrom_skipFrom false _ cs)
    · next hspace =>
      rw [beginsBlank, Bool.eq_false_iff.mpr hspace, Bool.false_or] at h
      rw [if_pos h, if_pos h]
      exact congrArg _ (stripFrom_skipFrom true _ cs)

theorem stripped_eq_nil : stripped cs = [] ↔ cs = [] := by
  cases cs with
  | nil => exact Iff.of_eq rfl
  | cons x cs =>
    refine iff_of_false ?_ (List.cons_ne_nil x cs)
    cases h : beginsBlank (x :: cs) with
    | true => rw [stripped_blank h]; exact List.cons_ne_nil _ _
    | false => rw [stripped_token h]; exact List.cons_ne_nil _ _

/-! ## Passing blanks -/

theorem afterBlanks_token (h : beginsBlank cs = false) : afterBlanks false cs = cs := by
  cases cs with
  | nil => rfl
  | cons x cs =>
    obtain ⟨hspace, hcomment⟩ := Bool.or_eq_false_iff.mp h
    simp [afterBlanks, Cursor.skipFrom, hspace, hcomment]

theorem Cursor.beginsBlank_skipFrom (inComment : Bool) (offset : Nat) (cs : List Char) :
    beginsBlank (skipFrom inComment offset cs).rest = false := by
  induction cs generalizing inComment offset with
  | nil => rfl
  | cons x cs ih =>
    simp only [skipFrom]
    split
    · exact ih _ _
    · split
      · exact ih _ _
      · split
        · exact ih _ _
        · next hspace hcomment =>
          rw [beginsBlank, Bool.eq_false_iff.mpr hspace, Bool.eq_false_iff.mpr hcomment]
          rfl

/-- Stripping makes no comment of characters that were none. -/
theorem beginsBlank_stripped (h : beginsBlank cs = false) : beginsBlank (stripped cs) = false := by
  match cs with
  | [] => rfl
  | [x] => rwa [stripped_token h]
  | x :: y :: cs =>
    rw [stripped_token h]
    cases hnext : beginsBlank (y :: cs) with
    | false => rwa [stripped_token hnext]
    | true =>
      rw [stripped_blank hnext, beginsBlank, (Bool.or_eq_false_iff.mp h).1]
      exact Bool.and_false _

/-- **Stripping keeps the places where tokens begin.** -/
theorem afterBlanks_stripped (cs : List Char) :
    afterBlanks false (stripped cs) = stripped (afterBlanks false cs) := by
  cases h : beginsBlank cs with
  | false => rw [afterBlanks_token h, afterBlanks_token (beginsBlank_stripped h)]
  | true =>
    have hnext : beginsBlank (afterBlanks false cs) = false := Cursor.beginsBlank_skipFrom _ _ _
    rw [stripped_blank h, afterBlanks_cons rfl, afterBlanks_token (beginsBlank_stripped hnext)]

end

/-! ## Places in a text and in the stripped text -/

/-- A way in a text from one place to another, and beside it a way in the stripped text: both end
where the same is left, and if blanks count, both pass the same characters. -/
structure Cursor.Passes (atomic : Bool) (c next c' next' : Cursor) : Prop where
  rest : next'.rest = stripped next.rest
  same : atomic = true → ∃ passed, c.rest = passed ++ next.rest ∧ c'.rest = passed ++ next'.rest

/-- A place in a text and one in the stripped text where the same is left. Unless blanks count, none
begins there. -/
structure Cursor.Mates (atomic : Bool) (c c' : Cursor) : Prop where
  rest : c'.rest = stripped c.rest
  token : atomic = false → beginsBlank c.rest = false

namespace Cursor

variable {atomic : Bool} {c mid next c' mid' next' : Cursor}

theorem Passes.refl (h : c'.rest = stripped c.rest) : Passes atomic c c c' c' :=
  ⟨h, fun _ => ⟨[], rfl, rfl⟩⟩

theorem Passes.trans (h : Passes atomic c mid c' mid') (hnext : Passes atomic mid next mid' next') :
    Passes atomic c next c' next' := by
  refine ⟨hnext.rest, fun hatomic => ?_⟩
  obtain ⟨ps, hps, hps'⟩ := h.same hatomic
  obtain ⟨qs, hqs, hqs'⟩ := hnext.same hatomic
  exact ⟨ps ++ qs, by rw [hps, hqs, List.append_assoc], by rw [hps', hqs', List.append_assoc]⟩

/-- Blanks may be passed before. -/
theorem Passes.of_onward (h : Passes atomic (c.onward atomic) next (c'.onward atomic) next') :
    Passes atomic c next c' next' := by
  cases atomic with
  | true => exact h
  | false => exact ⟨h.rest, nofun⟩

/-- What the same characters were passed of is the same. -/
theorem Passes.upTo_eq (h : Passes true c next c' next') : c.upTo next = c'.upTo next' := by
  obtain ⟨passed, hc, hc'⟩ := h.same rfl
  simp [upTo, hc, hc']

theorem mates_onward (atomic : Bool) (h : c'.rest = stripped c.rest) :
    Mates atomic (c.onward atomic) (c'.onward atomic) := by
  cases atomic with
  | true => exact ⟨h, nofun⟩
  | false =>
    refine ⟨?_, fun _ => beginsBlank_skipFrom _ _ _⟩
    rw [rest_onward, rest_onward, h, afterBlanks_stripped]

/-! ### Characters and words -/

/-- A character is passed in both texts or in none, unless it is one that a blank may begin with. -/
theorem char?_mates {accepts : Char → Bool} (h : c'.rest = stripped c.rest)
    (hclear : beginsBlank c.rest = false ∨ ∀ x, separates x = true → accepts x = false) :
    Option.Rel (fun next next' => Passes atomic c next c' next') (c.char? accepts)
      (c'.char? accepts) := by
  cases hrest : c.rest with
  | nil =>
    rw [hrest] at h
    simp only [char?, hrest, show c'.rest = [] from h]
    exact .none
  | cons x cs =>
    rw [hrest] at h hclear
    cases hbegins : beginsBlank (x :: cs) with
    | false =>
      rw [stripped_token hbegins] at h
      simp only [char?, hrest, h]
      split
      · exact .some ⟨rfl, fun _ => ⟨[x], hrest, h⟩⟩
      · exact .none
    | true =>
      have hreject := hclear.resolve_left (by rw [hbegins]; exact Bool.noConfusion)
      rw [stripped_blank hbegins] at h
      simp only [char?, hrest, h, hreject x (separates_of_beginsBlank hbegins),
        hreject ' ' rfl, Bool.false_eq_true, if_false]
      exact .none

/-- A word is passed in both texts or in none, if no blank begins with any of its characters. -/
theorem word?_mates {w : List Char} (h : c'.rest = stripped c.rest)
    (hw : ∀ x ∈ w, separates x = false) :
    Option.Rel (fun next next' => Passes atomic c next c' next') (c.word? w) (c'.word? w) := by
  induction w generalizing c c' with
  | nil => exact .some (.refl h)
  | cons x w ih =>
    obtain ⟨hx, hw⟩ := List.forall_mem_cons.mp hw
    have hfirst : Option.Rel (fun next next' => Passes atomic c next c' next')
        (c.char? (· == x)) (c'.char? (· == x)) := by
      refine char?_mates h (.inr fun y hy => beq_eq_false_iff_ne.mpr ?_)
      rintro rfl
      exact absurd (hx.symm.trans hy) Bool.false_ne_true
    rw [word?, word?]
    generalize c.char? (· == x) = o, c'.char? (· == x) = o' at hfirst ⊢
    cases hfirst with
    | none => exact .none
    | @some mid mid' hmid =>
      have hnext := ih hmid.rest hw
      show Option.Rel _ (mid.word? w) (mid'.word? w)
      generalize mid.word? w = o, mid'.word? w = o' at hnext ⊢
      cases hnext with
      | none => exact .none
      | some hnext => exact .some (hmid.trans hnext)

/-- Where a token begins, any character is passed in both texts or in none. -/
theorem word?_singleton_mates (h : Mates false c c') (x : Char) :
    Option.Rel (fun next next' => Passes atomic c next c' next') (c.word? [x]) (c'.word? [x]) := by
  have hfirst : Option.Rel (fun next next' => Passes atomic c next c' next') (c.char? (· == x))
      (c'.char? (· == x)) := char?_mates h.rest (.inl (h.token rfl))
  rw [word?, word?]
  generalize c.char? (· == x) = o, c'.char? (· == x) = o' at hfirst ⊢
  cases hfirst with
  | none => exact .none
  | some hnext => exact .some hnext

end Cursor

end TraceTree

import Mathlib.Data.List.DropRight
import TraceTree.Text.Blank

set_option autoImplicit false

/-! # Bracketed texts

A subtree is opened by a bracket with a dot and closed by a bracket. What it takes for a text to be
one well-formed subtree (`Text.WellBracketed`) speaks of every beginning of the text and of every
closing bracket in it. It is shown by way of `Text.Outline`: texts made line by line, in which a
subtree opens and closes on one line, or closes on a line of its own that is indented like the one
on which it was opened. Whole lines can follow one another without interfering, since what stands
on a line depends on nothing before it (`Text.lastLine_append`). -/

namespace TraceTree.Text

/-! ## What a well-formed text is -/

/-- How many subtrees a text opens: its brackets that are followed by a dot. -/
def openings : List Char → Nat
  | [] => 0
  | c :: t => (if c = '[' ∧ t.head? = some '.' then 1 else 0) + openings t

/-- The subtrees that a text opens less those that it closes. -/
def difference (t : List Char) : Int := openings t - t.count ']'

/-- A text closes what it opens, and nothing else. -/
structure Balanced (t : List Char) : Prop where
  nonneg : ∀ p, p <+: t → 0 ≤ difference p
  total : difference t = 0

/-- What a text has on its last line. -/
def lastLine (t : List Char) : List Char := t.rtakeWhile (· ≠ '\n')

/-- Every closing bracket belongs to an opening one, with a balanced text between them. If nothing
but blanks stands before it on its line, just these blanks stand before the opening one on its
line. -/
def Matched (t : List Char) : Prop :=
  ∀ before after, t = before ++ ']' :: after →
    ∃ a b, before = a ++ '[' :: '.' :: b ∧ Balanced b ∧
      ((lastLine before).all isBlank = true → lastLine a = lastLine before)

/-- A text is one well-formed subtree and a line break. -/
structure WellBracketed (t : List Char) : Prop where
  ends : ∃ inner, t = '[' :: '.' :: (inner ++ [']', '\n'])
  nonneg : ∀ p, p <+: t → 0 ≤ difference p
  /-- All is closed before anything is opened, and then not before the very last bracket. -/
  zero_iff : ∀ p, p <+: t → (difference p = 0 ↔ p.length < 2 ∨ t.length ≤ p.length + 1)
  matched : Matched t

/-! ## Parts of texts -/

/-- A text without brackets and line breaks. -/
def Bare (t : List Char) : Prop := ∀ c ∈ t, c ≠ '[' ∧ c ≠ ']' ∧ c ≠ '\n'

/-- The last character of a text, if there is one, has a property. -/
def LastIs (P : Char → Prop) (t : List Char) : Prop := ∀ c ∈ t.getLast?, P c

/-- A text is made of whole lines. -/
abbrev EndsLine (t : List Char) : Prop := LastIs (· = '\n') t

/-- A text does not end between a bracket and its dot. -/
abbrev Uncut (t : List Char) : Prop := LastIs (· ≠ '[') t

section

variable {x y t : List Char} {c : Char}

theorem bare_nil : Bare [] := fun _ hc => absurd hc List.not_mem_nil

theorem bare_append : Bare (x ++ y) ↔ Bare x ∧ Bare y := List.forall_mem_append

theorem Bare.of_subset (h : Bare y) (hsub : x ⊆ y) : Bare x := fun c hc => h c (hsub hc)

theorem lastIs_nil {P : Char → Prop} : LastIs P [] := fun _ hc => (by cases hc)

theorem lastIs_singleton {P : Char → Prop} : LastIs P [c] ↔ P c := by
  simp [LastIs]

theorem lastIs_append_cons {P : Char → Prop} :
    LastIs P (x ++ c :: y) ↔ LastIs P (c :: y) := by
  rw [LastIs, LastIs, List.getLast?_append_of_ne_nil _ (List.cons_ne_nil c y)]

theorem LastIs.append {P : Char → Prop} (hx : LastIs P x) (hy : LastIs P y) :
    LastIs P (x ++ y) := by
  cases y with
  | nil => rwa [List.append_nil]
  | cons c y => exact lastIs_append_cons.mpr hy

theorem EndsLine.uncut (h : EndsLine t) : Uncut t := by
  intro c hc
  rw [h c hc]
  decide

theorem Bare.uncut (h : Bare t) : Uncut t := fun c hc => (h c (List.mem_of_getLast? hc)).1

/-! ### The last line -/

theorem lastLine_of_not_mem (h : '\n' ∉ t) : lastLine t = t := by
  refine List.rtakeWhile_eq_self_iff.mpr fun c hc => ?_
  exact decide_eq_true (ne_of_mem_of_not_mem hc h)

theorem Bare.newline_not_mem (h : Bare t) : '\n' ∉ t := fun hmem => (h _ hmem).2.2 rfl

theorem Bare.close_not_mem (h : Bare t) : ']' ∉ t := fun hmem => (h _ hmem).2.1 rfl

/-- **What stands on a line does not depend on the lines before it.** -/
theorem lastLine_append (hx : EndsLine x) (y : List Char) : lastLine (x ++ y) = lastLine y := by
  simp only [lastLine]
  induction y using List.reverseRecOn with
  | nil =>
    rw [List.append_nil, List.rtakeWhile_nil, List.rtakeWhile_eq_nil_iff]
    intro hne
    have hlast := hx _ (List.getLast?_eq_some_getLast hne)
    simp [hlast]
  | append_singleton y c ih =>
    rw [← List.append_assoc, List.rtakeWhile_concat, List.rtakeWhile_concat, ih]

/-! ### The running difference -/

@[simp] theorem difference_nil : difference [] = 0 := rfl

theorem openings_append (h : Uncut x) (y : List Char) :
    openings (x ++ y) = openings x + openings y := by
  induction x with
  | nil => simp [openings]
  | cons c x ih =>
    cases x with
    | nil =>
      have hc : c ≠ '[' := h c rfl
      simp [openings, hc]
    | cons d x =>
      have ih := ih (lastIs_append_cons (x := [c]).mp h)
      rw [List.cons_append, openings, openings, ih, Nat.add_assoc]
      rfl

/-- Differences add up, unless a bracket is cut off from its dot. -/
theorem difference_append (h : Uncut x) (y : List Char) :
    difference (x ++ y) = difference x + difference y := by
  simp only [difference, openings_append h, List.count_append]
  omega

@[simp] theorem difference_open (t : List Char) :
    difference ('[' :: '.' :: t) = difference t + 1 := by
  simp [difference, openings]
  omega

@[simp] theorem difference_close (t : List Char) : difference (']' :: t) = difference t - 1 := by
  simp [difference, openings]
  omega

theorem difference_of_unbracketed (h : ∀ c ∈ t, c ≠ '[' ∧ c ≠ ']') : difference t = 0 := by
  have hopenings : openings t = 0 := by
    induction t with
    | nil => rfl
    | cons c t ih =>
      have hc := (h c List.mem_cons_self).1
      simp [openings, hc, ih fun d hd => h d (List.mem_cons_of_mem _ hd)]
  have hclosings : t.count ']' = 0 := List.count_eq_zero.mpr fun hmem => (h _ hmem).2 rfl
  simp [difference, hopenings, hclosings]

/-! ### Balanced texts -/

/-- A beginning of two texts together ends in the first or in the second. -/
theorem prefix_append_cases {p : List Char} (h : p <+: x ++ y) :
    p <+: x ∨ ∃ q, p = x ++ q ∧ q <+: y := by
  rcases List.prefix_or_prefix_of_prefix h (List.prefix_append x y) with hp | ⟨q, rfl⟩
  · exact Or.inl hp
  · exact Or.inr ⟨q, rfl, (List.prefix_append_right_inj x).mp h⟩

theorem balanced_of_unbracketed (h : ∀ c ∈ t, c ≠ '[' ∧ c ≠ ']') : Balanced t := by
  refine ⟨fun p hp => ?_, difference_of_unbracketed h⟩
  exact Int.le_of_eq (difference_of_unbracketed fun c hc => h c (hp.subset hc)).symm

theorem Bare.balanced (h : Bare t) : Balanced t :=
  balanced_of_unbracketed fun c hc => ⟨(h c hc).1, (h c hc).2.1⟩

theorem balanced_newline : Balanced ['\n'] := balanced_of_unbracketed (by simp)

theorem Balanced.append (hx : Balanced x) (hcut : Uncut x) (hy : Balanced y) :
    Balanced (x ++ y) := by
  refine ⟨fun p hp => ?_, by rw [difference_append hcut, hx.total, hy.total, Int.add_zero]⟩
  rcases prefix_append_cases hp with hp | ⟨q, rfl, hq⟩
  · exact hx.nonneg p hp
  · rw [difference_append hcut, hx.total, Int.zero_add]
    exact hy.nonneg q hq

/-! ### Subtrees -/

/-- The beginnings of a balanced text that is enclosed in brackets. -/
theorem prefix_enclosed_cases {p : List Char} (h : p <+: '[' :: '.' :: (x ++ y)) :
    p = [] ∨ p = ['['] ∨ (∃ q, p = '[' :: '.' :: q ∧ q <+: x) ∨
      ∃ q, p = '[' :: '.' :: (x ++ q) ∧ q <+: y := by
  rcases List.prefix_cons_iff.mp h with rfl | ⟨p, rfl, hdot⟩
  · exact Or.inl rfl
  rcases List.prefix_cons_iff.mp hdot with rfl | ⟨p, rfl, hinside⟩
  · exact Or.inr (Or.inl rfl)
  rcases prefix_append_cases hinside with hp | ⟨q, rfl, hq⟩
  · exact Or.inr (Or.inr (Or.inl ⟨p, rfl, hp⟩))
  · exact Or.inr (Or.inr (Or.inr ⟨q, rfl, hq⟩))

/-- **A balanced text in brackets is balanced,** and the brackets are closed last. -/
theorem Balanced.enclose (hx : Balanced x) (hcut : Uncut x) :
    Balanced ('[' :: '.' :: (x ++ [']'])) := by
  have hwhole : ∀ q, difference ('[' :: '.' :: (x ++ q)) = difference q + 1 := by
    intro q
    rw [difference_open, difference_append hcut, hx.total, Int.zero_add]
  refine ⟨fun p hp => ?_, by rw [hwhole, difference_close]; rfl⟩
  rcases prefix_enclosed_cases hp with rfl | rfl | ⟨q, rfl, hq⟩ | ⟨q, rfl, hq⟩
  · exact Int.le_refl 0
  · exact Int.le_refl 0
  · have hq := hx.nonneg q hq
    rw [difference_open]
    omega
  · rw [hwhole]
    rcases List.prefix_cons_iff.mp hq with rfl | ⟨r, rfl, hr⟩
    · decide
    · rw [List.prefix_nil.mp hr]
      decide

/-- A subtree on lines of its own, whatever is balanced inside it. -/
theorem Balanced.subtree (hx : Balanced x) (hcut : Uncut x) {indent : List Char}
    (hindent : Bare indent) : Balanced (indent ++ '[' :: '.' :: x ++ [']', '\n']) := by
  have hclosed : Uncut ('[' :: '.' :: (x ++ [']'])) :=
    lastIs_append_cons (x := '[' :: '.' :: x).mpr (lastIs_singleton.mpr (by decide))
  have hall := hindent.balanced.append hindent.uncut
    ((hx.enclose hcut).append hclosed balanced_newline)
  simpa using hall

/-- **Around a balanced text the brackets are closed by the last one,** and by none before it. -/
theorem Balanced.zero_iff (hx : Balanced x) (hcut : Uncut x) {p : List Char}
    (hp : p <+: '[' :: '.' :: (x ++ [']', '\n'])) :
    difference p = 0 ↔ p.length < 2 ∨ x.length + 3 ≤ p.length := by
  rcases prefix_enclosed_cases hp with rfl | rfl | ⟨q, rfl, hq⟩ | ⟨q, rfl, hq⟩
  · simp
  · simp [difference, openings]
  · have hnonneg := hx.nonneg q hq
    have hlength := hq.length_le
    simp only [difference_open, List.length_cons]
    omega
  · rw [difference_open, difference_append hcut, hx.total]
    rcases List.prefix_cons_iff.mp hq with rfl | ⟨r, rfl, hr⟩
    · simp
    · have hline : difference r = 0 :=
        difference_of_unbracketed fun c hc => by
          rw [List.mem_singleton.mp (hr.subset hc)]
          decide
      simp only [difference_close, hline, List.length_cons, List.length_append]
      omega

/-! ### Closing brackets and their opening ones -/

theorem matched_of_unclosed (h : ']' ∉ t) : Matched t := by
  rintro before after rfl
  exact absurd (List.mem_append_right _ List.mem_cons_self) h

theorem Matched.append (hends : EndsLine x) (hx : Matched x) (hy : Matched y) :
    Matched (x ++ y) := by
  intro before after htext
  rcases List.append_eq_append_iff.mp htext with ⟨z, rfl, hz⟩ | ⟨z, hz, hafter⟩
  · obtain ⟨a, b, rfl, hb, hline⟩ := hy z after hz
    refine ⟨x ++ a, b, by simp, hb, ?_⟩
    rwa [lastLine_append hends, lastLine_append hends]
  · cases z with
    | nil =>
      -- the bracket is the first character of the second text
      obtain ⟨a, b, ha, hb, hline⟩ := hy [] after hafter.symm
      simp at ha
    | cons c z =>
      obtain ⟨rfl, -⟩ := List.cons.inj hafter
      exact hx before z hz

/-- One more closing bracket, at the end of a line. -/
theorem Matched.close (hx : Matched x) {a b : List Char} (hopened : x = a ++ '[' :: '.' :: b)
    (hb : Balanced b) (hline : (lastLine x).all isBlank = true → lastLine a = lastLine x) :
    Matched (x ++ [']', '\n']) := by
  intro before after htext
  rcases List.append_eq_append_iff.mp htext with ⟨z, rfl, hz⟩ | ⟨z, rfl, hafter⟩
  · cases z with
    | nil => exact ⟨a, b, by simpa using hopened, hb, by simpa using hline⟩
    | cons c z =>
      -- after the bracket comes the line break alone
      have hmem : ']' ∈ ['\n'] := by
        rw [(List.cons.inj hz).2]
        exact List.mem_append_right _ List.mem_cons_self
      exact absurd hmem (by decide)
  · cases z with
    | nil =>
      rw [List.append_nil] at hopened hline
      exact ⟨a, b, hopened, hb, hline⟩
    | cons c z =>
      obtain ⟨rfl, -⟩ := List.cons.inj hafter
      exact hx before z rfl

end

/-! ## Texts made line by line -/

/-- Texts that consist of lines without brackets, of subtrees on one line, and of subtrees of several
lines, of which the last is indented like the first. -/
inductive Outline : List Char → Prop where
  | nil : Outline []
  | line {content : List Char} (bare : Bare content) : Outline (content ++ ['\n'])
  | leaf {indent label : List Char} (indented : Bare indent) (bare : Bare label) :
      Outline (indent ++ '[' :: '.' :: label ++ [']', '\n'])
  | subtree {indent label inner : List Char} (indented : Bare indent) (bare : Bare label)
      (outline : Outline inner) :
      Outline (indent ++ '[' :: '.' :: (label ++ '\n' :: inner ++ indent) ++ [']', '\n'])
  | append {x y : List Char} (first : Outline x) (second : Outline y) : Outline (x ++ y)

namespace Outline

variable {indent label inner t : List Char}

theorem endsLine (h : Outline t) : EndsLine t := by
  induction h with
  | nil => exact lastIs_nil
  | line bare => exact lastIs_append_cons.mpr (lastIs_singleton.mpr rfl)
  | leaf indented bare | subtree indented bare outline =>
    exact lastIs_append_cons.mpr fun c hc => (Option.some.inj hc).symm
  | append first second ihx ihy => exact ihx.append ihy

/-- What is inside the brackets of a subtree of several lines. -/
theorem balanced_inside (hindent : Bare indent) (hlabel : Bare label) (hends : EndsLine inner)
    (hinner : Balanced inner) :
    Balanced (label ++ '\n' :: inner ++ indent) ∧ Uncut (label ++ '\n' :: inner ++ indent) := by
  have hnewline : EndsLine ['\n'] := lastIs_singleton.mpr rfl
  have hline : EndsLine ('\n' :: inner) := hnewline.append hends
  have hbalanced : Balanced ('\n' :: inner) := balanced_newline.append hnewline.uncut hinner
  have hcut : Uncut (label ++ '\n' :: inner) := lastIs_append_cons.mpr hline.uncut
  exact ⟨(hlabel.balanced.append hlabel.uncut hbalanced).append hcut hindent.balanced,
    hcut.append hindent.uncut⟩

/-- **Such texts are balanced.** -/
theorem balanced (h : Outline t) : Balanced t := by
  induction h with
  | nil => exact bare_nil.balanced
  | line bare => exact bare.balanced.append bare.uncut balanced_newline
  | leaf indented bare => exact bare.balanced.subtree bare.uncut indented
  | subtree indented bare outline ih =>
    obtain ⟨hinside, hcut⟩ := balanced_inside indented bare outline.endsLine ih
    exact hinside.subtree hcut indented
  | append first second ihx ihy => exact ihx.append first.endsLine.uncut ihy

/-- **In such texts brackets are indented like those that they close.** -/
theorem matched (h : Outline t) : Matched t := by
  induction h with
  | nil => exact matched_of_unclosed List.not_mem_nil
  | line bare => exact matched_of_unclosed (by simp [bare.close_not_mem])
  | @leaf indent label indented bare =>
    have hunclosed : ']' ∉ indent ++ '[' :: '.' :: label := by
      simp [indented.close_not_mem, bare.close_not_mem]
    refine (matched_of_unclosed hunclosed).close rfl bare.balanced fun hblank => ?_
    -- the opening bracket is on the same line
    rw [lastLine_of_not_mem (by simp [indented.newline_not_mem, bare.newline_not_mem])] at hblank
    have hbracket := List.all_eq_true.mp hblank '[' (List.mem_append_right _ List.mem_cons_self)
    exact absurd hbracket (by decide)
  | @subtree indent label inner indented bare outline ih =>
    have hbefore : Matched (indent ++ '[' :: '.' :: label ++ ['\n']) :=
      matched_of_unclosed (by simp [indented.close_not_mem, bare.close_not_mem])
    have hends : EndsLine (indent ++ '[' :: '.' :: label ++ ['\n']) :=
      lastIs_append_cons.mpr (lastIs_singleton.mpr rfl)
    have hinside : Matched (indent ++ '[' :: '.' :: label ++ ['\n'] ++ inner ++ indent) :=
      (hbefore.append hends ih).append (hends.append outline.endsLine)
        (matched_of_unclosed indented.close_not_mem)
    have hsplit : indent ++ '[' :: '.' :: (label ++ '\n' :: inner ++ indent) =
        indent ++ '[' :: '.' :: label ++ ['\n'] ++ inner ++ indent := by simp
    have hline : lastLine (indent ++ '[' :: '.' :: (label ++ '\n' :: inner ++ indent)) =
        lastLine indent := by
      rw [hsplit, lastLine_append (hends.append outline.endsLine)]
    rw [← hsplit] at hinside
    exact hinside.close rfl (balanced_inside indented bare outline.endsLine outline.balanced).1
      fun _ => hline.symm
  | append first second ihx ihy => exact ihx.append first.endsLine ihy

/-- **A subtree of several lines that is not indented is well-formed.** -/
theorem wellBracketed (hlabel : Bare label) (hinner : Outline inner) :
    WellBracketed ('[' :: '.' :: (label ++ '\n' :: inner ++ [']', '\n'])) := by
  have htext : Outline ('[' :: '.' :: (label ++ '\n' :: inner ++ [']', '\n'])) := by
    simpa using subtree bare_nil hlabel hinner
  obtain ⟨hinside, hcut⟩ : Balanced (label ++ '\n' :: inner) ∧ Uncut (label ++ '\n' :: inner) := by
    simpa using balanced_inside bare_nil hlabel hinner.endsLine hinner.balanced
  refine ⟨⟨_, rfl⟩, htext.balanced.nonneg, fun p hp => ?_, htext.matched⟩
  rw [hinside.zero_iff hcut hp]
  simp only [List.length_cons, List.length_append, List.length_nil, Nat.add_le_add_iff_right]

end Outline

end TraceTree.Text

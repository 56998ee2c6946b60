import Mathlib.Data.List.Induction
import TraceTree.Session.Brackets

set_option autoImplicit false

/-! # Brackets left open

A text can be read from left to right, so that each closing bracket is set against one that is open
and one that is met when none is open is left over (`Tally`). The number of open brackets that a
session goes by is not the number that is left unmatched in this way: the balance of a text is the
unmatched brackets less those left over (`balance_eq`), so a closing bracket that is left over hides
an opening one, also one that stands behind it. -/

namespace TraceTree.Brackets

/-! ## Reading from left to right -/

/-- The brackets of a text as they are met from left to right. -/
structure Tally where
  /-- The brackets that are open. -/
  unmatched : Nat
  /-- The closing brackets that were met when none was open. -/
  surplus : Nat

/-- The tally with one more character. A closing bracket is matched with one that is open, if any
is. -/
def Tally.read (t : Tally) (c : Char) : Tally :=
  if c = '\x7b' ∨ c = '(' then { t with unmatched := t.unmatched + 1 }
  else if c = '\x7d' ∨ c = ')' then
    if t.unmatched = 0 then { t with surplus := t.surplus + 1 }
    else { t with unmatched := t.unmatched - 1 }
  else t

/-- The tally of a text. -/
def tally (text : List Char) : Tally := text.foldl Tally.read ⟨0, 0⟩

/-! ## The balance of a text -/

@[simp] theorem balance_nil : balance [] = 0 := rfl

@[simp] theorem balance_cons (c : Char) (text : List Char) :
    balance (c :: text) = weight c + balance text := rfl

@[simp] theorem balance_append (text more : List Char) :
    balance (text ++ more) = balance text + balance more := by
  induction text with
  | nil => simp
  | cons c text ih => simp [ih, Int.add_assoc]

/-- A character adds its weight to the brackets that are open less those left over. -/
theorem Tally.read_sub (t : Tally) (c : Char) :
    ((t.read c).unmatched : Int) - (t.read c).surplus =
      (t.unmatched : Int) - t.surplus + weight c := by
  by_cases hopen : c = '\x7b' ∨ c = '('
  · simp [Tally.read, weight, hopen]
    omega
  · by_cases hclose : c = '\x7d' ∨ c = ')'
    · by_cases hnone : t.unmatched = 0
      · simp [Tally.read, weight, hopen, hclose, hnone]
        omega
      · simp [Tally.read, weight, hopen, hclose, hnone]
        omega
    · simp [Tally.read, weight, hopen, hclose]

/-- **The balance of a text** is the brackets it leaves open less the closing ones left over. -/
theorem balance_eq (text : List Char) :
    balance text = (tally text).unmatched - (tally text).surplus := by
  have hfrom : ∀ t : Tally, ((text.foldl Tally.read t).unmatched : Int) -
      (text.foldl Tally.read t).surplus = (t.unmatched : Int) - t.surplus + balance text := by
    induction text with
    | nil => simp
    | cons c text ih =>
      intro t
      have hrest := ih (t.read c)
      have hfirst := t.read_sub c
      simp only [List.foldl_cons, balance_cons]
      omega
  simpa [tally] using (hfrom ⟨0, 0⟩).symm

/-! ## Closing brackets left over -/

theorem tally_concat (text : List Char) (c : Char) :
    tally (text ++ [c]) = (tally text).read c := by
  simp [tally]

/-- No closing bracket that was left over is matched later. -/
theorem Tally.surplus_le_read (t : Tally) (c : Char) : t.surplus ≤ (t.read c).surplus := by
  unfold Tally.read
  repeat' split
  all_goals simp

theorem surplus_le_of_prefix {before text : List Char} (h : before <+: text) :
    (tally before).surplus ≤ (tally text).surplus := by
  obtain ⟨after, rfl⟩ := h
  induction after using List.reverseRecOn with
  | nil => simp
  | append_singleton after c ih =>
    rw [← List.append_assoc, tally_concat]
    exact Nat.le_trans ih (Tally.surplus_le_read _ c)

/-- **No closing bracket is left over** if no beginning of the text has more of them than it has
opening ones. -/
theorem surplus_eq_zero_iff (text : List Char) :
    (tally text).surplus = 0 ↔ ∀ before, before <+: text → 0 ≤ balance before := by
  constructor
  · intro hnone before hbegins
    have hle := surplus_le_of_prefix hbegins
    rw [balance_eq]
    omega
  · intro hnonneg
    induction text using List.reverseRecOn with
    | nil => rfl
    | append_singleton text c ih =>
      have hbefore := ih fun before hbegins =>
        hnonneg before (hbegins.trans (List.prefix_append text [c]))
      have hall := hnonneg _ List.prefix_rfl
      have hbalance := balance_eq text
      rw [balance_append, balance_cons, balance_nil] at hall
      rw [tally_concat, Tally.read]
      split
      · exact hbefore
      · next hopen =>
        split
        · next hclose =>
          have hweight : weight c = -1 := by simp [weight, hopen, hclose]
          split
          · omega
          · exact hbefore
        · exact hbefore

/-! ## The number of open brackets -/

/-- **The number of open brackets** is that of the unmatched opening ones less the closing ones left
over, and not below zero. So it is the number of unmatched opening brackets only if there are none,
or if no beginning of the text has more closing than opening brackets. -/
theorem openDepth_eq_unmatched_sub_surplus (text : String) :
    openDepth text = (tally text.toList).unmatched - (tally text.toList).surplus ∧
      (openDepth text = (tally text.toList).unmatched ↔
        (tally text.toList).unmatched = 0 ∨
          ∀ before, before <+: text.toList → 0 ≤ balance before) := by
  have hbalance := balance_eq text.toList
  have hdepth : openDepth text = (tally text.toList).unmatched - (tally text.toList).surplus := by
    rw [openDepth]
    omega
  refine ⟨hdepth, ?_⟩
  rw [← surplus_eq_zero_iff]
  omega

/-- A closing bracket that is left over hides the opening one behind it. -/
theorem openDepth_ne_unmatched :
    ¬ ∀ text : String, openDepth text = (tally text.toList).unmatched := by
  intro h
  exact absurd (h "\x7d\x7b") (by decide)

end TraceTree.Brackets

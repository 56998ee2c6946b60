import TraceTree.Proofs.Grammar.Balance
import TraceTree.Proofs.Syntax.Layout

set_option autoImplicit false

/-! # Input that is held back

A text is continued on the next line while the number of open brackets is not zero. The grammar lets
a text be read only if the brackets outside of its comments are balanced, so the comments alone
decide whether a text that can be read is held back: those in which more brackets are opened than
closed hold it back. -/

namespace TraceTree

open Brackets (balance openDepth isComplete)

theorem Level.isUniform_items (level : Level) :
    level.items.isUniform = true ∧ level.items.net = 0 := by
  cases level <;> decide

/-- Outside of its comments, a text that is matched at a level is balanced. -/
theorem Level.Matches.balance_stripped {level : Level} {source : List Char} {items : List Pair}
    {last : Pair} {next : Cursor} (h : level.Matches source items last next) :
    balance (stripped source) = 0 := by
  obtain ⟨-, mid, hitems, -, hrest⟩ := h.end_eq
  obtain ⟨b, hrun⟩ := hitems .empty
  obtain ⟨hclear, -⟩ := (Bool.and_eq_true _ _).mp level.isClear_items
  obtain ⟨huniform, hzero⟩ := level.isUniform_items
  have hpassed := Pattern.balance_of_run hclear huniform hrun
  have hend : balance (stripped mid.rest) = 0 := by
    rw [← mid.balance_onward false]
    exact congrArg (fun cs => balance (stripped cs)) hrest
  rw [hzero, hend] at hpassed
  exact hpassed

/-- **What is held back of the texts that can be read.** The number of open brackets of such a text is
that of its comments, so it is complete just when its comments close as many brackets as they open,
or more. -/
theorem openDepth_of_parseAt {source : String} {level : Level} {first : NodeId} {parsed : Parsed}
    (h : parseAt first source level = .ok parsed) :
    openDepth source = (balance (comments source.toList)).toNat ∧
      (isComplete source = true ↔ balance (comments source.toList) ≤ 0) := by
  obtain ⟨items, last, next, hmatches, -⟩ := parseAt_eq_ok_iff.mp h
  have hall := balance_stripped_add_comments source.toList
  have hstripped := hmatches.balance_stripped
  have hdepth : openDepth source = (balance (comments source.toList)).toNat := by
    rw [openDepth, ← hall, hstripped, Int.zero_add]
  refine ⟨hdepth, ?_⟩
  rw [isComplete, beq_iff_eq, hdepth]
  omega

/-- A call of a function, with brackets in its comments. -/
def commentedCall : String := "// f(1\nf(fn(n) \x7b // ends with \x7d\n  n\n\x7d)"

theorem text_commentedCall : (parseAt 0 commentedCall .program).toOption.map (·.root.text) =
    some "f(fn(n) \x7b n; \x7d);" := by
  cbv

theorem openDepth_commentedCall :
    ∃ parsed, parseAt 0 commentedCall .program = .ok parsed ∧
      openDepth commentedCall = (balance (comments commentedCall.toList)).toNat ∧
        isComplete commentedCall = true := by
  have htext := text_commentedCall
  cases hparsed : parseAt 0 commentedCall .program with
  | error e =>
    rw [hparsed] at htext
    cases htext
  | ok parsed =>
    obtain ⟨hdepth, hcomplete⟩ := openDepth_of_parseAt hparsed
    exact ⟨parsed, rfl, hdepth, hcomplete.mpr (by decide)⟩

/-- A program that can be read is held back for the bracket in its comment. -/
theorem held_back_by_comment :
    ¬ ∀ source parsed, parseAt 0 source .program = .ok parsed → openDepth source = 0 := by
  intro h
  have htext : (parseAt 0 "1 // (" .program).toOption.map (·.root.text) = some "1;" := by cbv
  cases hparsed : parseAt 0 "1 // (" .program with
  | error e =>
    rw [hparsed] at htext
    cases htext
  | ok parsed => exact absurd (h _ parsed hparsed) (by decide)

end TraceTree

import Mathlib.Data.String.Basic
import TraceTree.Text.Bytes

set_option autoImplicit false

/-! # Cutting between characters

A text that is cut behind the bytes of its first characters falls into these and the others
(`cutAt?_append`), and what is cut out between two such places is what stands between them
(`slice?_append`). -/

namespace TraceTree.Text

variable {test : Char → Bool} {c : Char} {cs : List Char}

@[simp] theorem byteCount_nil : byteCount [] = 0 := rfl

@[simp] theorem byteCount_cons : byteCount (c :: cs) = c.utf8Size + byteCount cs := rfl

@[simp] theorem byteCount_append (as bs : List Char) :
    byteCount (as ++ bs) = byteCount as + byteCount bs := by
  induction as with
  | nil => simp
  | cons c as ih => simp [ih, Nat.add_assoc]

theorem byteCount_eq_utf8Len (cs : List Char) : byteCount cs = String.utf8Len cs := by
  induction cs with
  | nil => rfl
  | cons c cs ih => rw [byteCount_cons, ih, String.utf8Len_cons, Nat.add_comm]

/-- A place behind a character is a place behind all its bytes. -/
theorem cutAt?_cons {n : Nat} (h : c.utf8Size ≤ n) : cutAt? n (c :: cs) =
    (cutAt? (n - c.utf8Size) cs).map fun parts => (c :: parts.1, parts.2) := by
  have hsize := c.utf8Size_pos
  cases n with
  | zero => omega
  | succ n => rw [cutAt?, if_neg (Nat.not_lt.mpr h)]

theorem cutAt?_append (part rest : List Char) :
    cutAt? (byteCount part) (part ++ rest) = some (part, rest) := by
  induction part with
  | nil => simp [cutAt?]
  | cons c part ih => simp [cutAt?_cons, ih]

theorem less?_add (a b : Nat) : less? (a + b) b = some a := by
  simp [less?]

theorem slice?_append (before part behind : List Char) :
    slice? (byteCount before) (byteCount (before ++ part)) (before ++ part ++ behind) =
      some part := by
  rw [slice?, byteCount_append, Nat.add_comm, less?_add, List.append_assoc]
  simp [cutAt?_append]

/-- The first character that fails a test stands behind those that pass it. -/
theorem getD_findByte? (test : Char → Bool) (cs : List Char) :
    (findByte? (fun c => !test c) cs).getD (byteCount cs) = byteCount (cs.takeWhile test) := by
  induction cs with
  | nil => rfl
  | cons c cs ih =>
    by_cases hc : test c = true
    · simp [findByte?, hc, ← ih]
    · simp [findByte?, hc]

end TraceTree.Text

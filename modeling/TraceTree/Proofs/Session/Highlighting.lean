import Mathlib.Data.List.Chain
import TraceTree.Proofs.Text.Bytes
import TraceTree.Session.Highlight

set_option autoImplicit false

/-! # Highlighting keeps the line

A line is cut into runs by numbers of bytes, each of them computed from the lengths of the line, of
what is left of it and of the last run. While it is cut, the runs so far and what is left make up
the line (`Sweep.Covers`). So every number is a place between two characters, and a run that grows
is cut out of the line again with the next token behind it (`Sweep.Covers.next?_eq`). What comes of
it are the tokens of the line, plain ones joined to those before them, which is what `classify`
says. -/

namespace TraceTree.Highlight

open Text (byteCount)

variable {line text : List Char} {run last : Run} {runs : List Run}

/-! ## Tokens -/

theorem flatten_tokens (text : List Char) : (tokens text).flatten = text := by
  induction text using tokens.induct with
  | case1 => simp [tokens]
  | case2 c cs ih => simp [tokens, ih]

theorem ne_nil_of_mem_tokens {token : List Char} (h : token ∈ tokens text) : token ≠ [] := by
  induction text using tokens.induct with
  | case1 => simp [tokens] at h
  | case2 c cs ih =>
    rw [tokens, List.mem_cons] at h
    rcases h with rfl | h
    · exact List.cons_ne_nil _ _
    · exact ih h

/-- The bytes of a token are counted up to the first character that does not continue it. -/
theorem tokenSize_cons (c : Char) (cs : List Char) :
    tokenSize c (c :: cs) = byteCount (c :: cs.takeWhile (continues c)) := by
  unfold tokenSize continues
  by_cases hname : isNameStart c = true
  · have hc : isNameChar c = true := by simp [isNameChar, hname]
    rw [if_pos hname, if_pos hname, Text.getD_findByte?, List.takeWhile_cons_of_pos hc]
  · rw [if_neg hname, if_neg hname]
    by_cases hdigit : isDigit c = true
    · rw [if_pos hdigit, if_pos hdigit, Text.getD_findByte?, List.takeWhile_cons_of_pos hdigit]
    · rw [if_neg hdigit, if_neg hdigit]
      cases cs <;> simp

/-! ## Joining runs -/

/-- A token as a run of its own. -/
def Run.ofToken (token : List Char) : Run := ⟨classOf token, token⟩

/-- The characters of some runs. -/
def textOf (runs : List Run) : List Char := runs.flatMap (·.text)

/-- No two neighbouring runs are both plain. -/
def Apart (runs : List Run) : Prop :=
  runs.IsChain fun a b => ¬ (a.type = .plain ∧ b.type = .plain)

theorem Apart.retype {run' : Run} (h : Apart (run :: runs)) (htype : run'.type = run.type) :
    Apart (run' :: runs) := by
  cases runs with
  | nil => exact List.isChain_singleton _
  | cons next more =>
    rw [Apart, List.isChain_cons_cons, htype]
    exact List.isChain_cons_cons.mp h

theorem Apart.reverse (h : Apart runs) : Apart runs.reverse := by
  rw [Apart, List.isChain_reverse]
  exact List.IsChain.imp (fun a b hab hba => hab hba.symm) h

theorem Apart.join (h : Apart runs) (run : Run) : Apart (join run runs) := by
  cases runs with
  | nil => exact List.isChain_singleton _
  | cons next more =>
    simp only [Highlight.join]
    by_cases hplain : run.type = .plain ∧ next.type = .plain
    · rw [if_pos hplain]
      exact h.retype hplain.2.symm
    · rw [if_neg hplain]
      exact List.isChain_cons_cons.mpr ⟨hplain, h⟩

theorem textOf_join (run : Run) (runs : List Run) :
    textOf (join run runs) = run.text ++ textOf runs := by
  cases runs with
  | nil => rfl
  | cons next more =>
    simp only [join]
    split
    · simp [textOf]
    · simp [textOf]

theorem ne_nil_of_mem_join (hrun : run.text ≠ []) (hruns : ∀ r ∈ runs, r.text ≠ []) :
    ∀ r ∈ join run runs, r.text ≠ [] := by
  cases runs with
  | nil => simpa [join] using hrun
  | cons next more =>
    simp only [join]
    split
    · simp_all
    · simp_all

/-- A run stays by itself in front of one that is not to be joined to it. -/
theorem join_eq_cons (h : Apart (run :: runs)) : join run runs = run :: runs := by
  cases runs with
  | nil => rfl
  | cons next more => exact if_neg (List.isChain_cons_cons.mp h).1

theorem foldr_join_eq_self (h : Apart runs) : runs.foldr join [] = runs := by
  induction runs with
  | nil => rfl
  | cons run runs ih => rw [List.foldr_cons, ih (List.IsChain.tail h), join_eq_cons h]

/-- Plain runs can be joined from either side. -/
theorem join_join {a b : List Char} (runs : List Run) :
    join ⟨.plain, a⟩ (join ⟨.plain, b⟩ runs) = join ⟨.plain, a ++ b⟩ runs := by
  cases runs with
  | nil => simp [join]
  | cons next more =>
    by_cases hplain : next.type = .plain
    · simp [join, hplain]
    · simp [join, hplain]

/-! ## Cutting -/

/-- Put a token behind runs of which the last one comes first. -/
def extend (token : List Char) : List Run → List Run
  | last :: before =>
    if last.type = .plain ∧ classOf token = .plain then ⟨.plain, last.text ++ token⟩ :: before
    else .ofToken token :: last :: before
  | [] => [.ofToken token]

theorem Apart.extend (h : Apart runs) (token : List Char) : Apart (extend token runs) := by
  cases runs with
  | nil => exact List.isChain_singleton _
  | cons last before =>
    simp only [Highlight.extend]
    by_cases hplain : last.type = .plain ∧ classOf token = .plain
    · rw [if_pos hplain]
      exact h.retype hplain.1.symm
    · rw [if_neg hplain]
      exact List.isChain_cons_cons.mpr ⟨fun hboth => hplain hboth.symm, h⟩

/-- Tokens that are put behind runs one by one are joined to them. -/
theorem reverse_foldl_extend (h : Apart runs) (ts : List (List Char)) :
    (ts.foldl (fun runs token => extend token runs) runs).reverse =
      runs.reverse.foldr join (ts.foldr (fun token runs => join (.ofToken token) runs) []) := by
  induction ts generalizing runs with
  | nil => exact (foldr_join_eq_self h.reverse).symm
  | cons token ts ih =>
    rw [List.foldl_cons, List.foldr_cons, ih (h.extend token)]
    cases runs with
    | nil => rfl
    | cons last before =>
      simp only [extend]
      by_cases hplain : last.type = .plain ∧ classOf token = .plain
      · obtain ⟨type, text⟩ := last
        obtain ⟨rfl, htoken⟩ := hplain
        simp [Run.ofToken, htoken, join_join]
      · simp [if_neg hplain]

/-- A run that grows begins behind the runs before it and ends with the token. -/
theorem regrow?_append (before part token tail : List Char) :
    regrow? (before ++ part ++ (token ++ tail)) (token ++ tail) tail part = some (part ++ token) := by
  have hstop : Text.less? (byteCount (before ++ part ++ (token ++ tail)))
      (byteCount (token ++ tail)) = some (byteCount before + byteCount part) := by
    rw [Text.byteCount_append (before ++ part), Text.less?_add, Text.byteCount_append]
  have hfinish : Text.less? (byteCount (before ++ part ++ (token ++ tail))) (byteCount tail) =
      some (byteCount (before ++ (part ++ token))) := by
    rw [← List.append_assoc, Text.byteCount_append (before ++ part ++ token), Text.less?_add,
      List.append_assoc]
  have hslice := Text.slice?_append before (part ++ token) tail
  simp only [regrow?, hstop, hfinish, Option.bind_eq_bind, Option.bind_some, Text.less?_add]
  rw [← hslice]
  simp only [List.append_assoc]

namespace Sweep

/-- The runs so far and what is left make up the line. -/
def Covers (line : List Char) (s : Sweep) : Prop := textOf s.runs.reverse ++ s.rest = line

/-- One token is cut off between two characters, and put behind the runs. -/
theorem Covers.next?_eq {c : Char} {cs : List Char} (h : Covers line ⟨runs, c :: cs⟩) :
    next? line ⟨runs, c :: cs⟩ c =
      some ⟨extend (c :: cs.takeWhile (continues c)) runs, cs.dropWhile (continues c)⟩ := by
  have hsize := tokenSize_cons c cs
  have hrest : c :: cs = (c :: cs.takeWhile (continues c)) ++ cs.dropWhile (continues c) := by simp
  generalize c :: cs.takeWhile (continues c) = token at hsize hrest ⊢
  generalize cs.dropWhile (continues c) = tail at hrest ⊢
  unfold next?
  simp only [hsize]
  rw [Covers, hrest] at h
  simp only [hrest, Text.cutAt?_append, Option.bind_eq_bind, Option.bind_some]
  cases runs with
  | nil => rfl
  | cons last before =>
    simp only [extend]
    by_cases hplain : last.type = .plain ∧ classOf token = .plain
    · have hline : textOf before.reverse ++ last.text ++ (token ++ tail) = line := by
        simpa [textOf] using h
      have hcond : last.type = classOf token ∧ classOf token = .plain :=
        ⟨hplain.1.trans hplain.2.symm, hplain.2⟩
      rw [if_pos hcond, if_pos hplain, ← hline, regrow?_append, hplain.1]
      rfl
    · have hcond : ¬ (last.type = classOf token ∧ classOf token = .plain) :=
        fun hsame => hplain ⟨hsame.1.trans hsame.2, hsame.2⟩
      rw [if_neg hcond, if_neg hplain]
      rfl

theorem Covers.extend {c : Char} {cs : List Char} (h : Covers line ⟨runs, c :: cs⟩) :
    Covers line ⟨extend (c :: cs.takeWhile (continues c)) runs, cs.dropWhile (continues c)⟩ := by
  have hrest : (c :: cs.takeWhile (continues c)) ++ cs.dropWhile (continues c) = c :: cs := by simp
  rw [Covers, ← hrest] at h
  generalize c :: cs.takeWhile (continues c) = token at h ⊢
  rw [Covers, ← h]
  cases runs with
  | nil => simp [Highlight.extend, textOf, Run.ofToken]
  | cons last before =>
    simp only [Highlight.extend]
    split
    · simp [textOf]
    · simp [textOf, Run.ofToken]

/-- Tokens are cut off until nothing is left. -/
theorem Covers.run?_eq {limit : Nat} {rest : List Char} (h : Covers line ⟨runs, rest⟩)
    (hlimit : rest.length ≤ limit) : run? line limit ⟨runs, rest⟩ =
      some ((tokens rest).foldl (fun runs token => Highlight.extend token runs) runs).reverse := by
  induction limit generalizing runs rest with
  | zero =>
    obtain rfl := List.eq_nil_of_length_eq_zero (Nat.le_zero.mp hlimit)
    simp [run?, tokens]
  | succ limit ih =>
    cases rest with
    | nil => simp [run?, tokens]
    | cons c cs =>
      have hshorter : (cs.dropWhile (continues c)).length ≤ limit :=
        (List.dropWhile_sublist _).length_le.trans (Nat.le_of_succ_le_succ hlimit)
      rw [run?, h.next?_eq, tokens, List.foldl_cons]
      exact ih h.extend hshorter

end Sweep

/-! ## Lines -/

theorem runsOf_eq (text : List Char) : runsOf text =
    (tokens text).foldr (fun token runs => join (.ofToken token) runs) [] := rfl

theorem apart_runsOf (text : List Char) : Apart (runsOf text) := by
  rw [runsOf_eq]
  induction tokens text with
  | nil => exact List.isChain_nil
  | cons token ts ih => exact ih.join _

theorem textOf_runsOf (text : List Char) : textOf (runsOf text) = text := by
  have hall : ∀ ts : List (List Char),
      textOf (ts.foldr (fun token runs => join (.ofToken token) runs) []) = ts.flatten := by
    intro ts
    induction ts with
    | nil => rfl
    | cons token ts ih => rw [List.foldr_cons, textOf_join, ih, List.flatten_cons, Run.ofToken]
  rw [runsOf_eq, hall, flatten_tokens]

theorem ne_nil_of_mem_runsOf (h : run ∈ runsOf text) : run.text ≠ [] := by
  have hall : ∀ ts : List (List Char), (∀ token ∈ ts, token ≠ []) →
      ∀ r ∈ ts.foldr (fun token runs => join (.ofToken token) runs) [], r.text ≠ [] := by
    intro ts hts
    induction ts with
    | nil => simp
    | cons token ts ih =>
      obtain ⟨htoken, hmore⟩ := List.forall_mem_cons.mp hts
      exact ne_nil_of_mem_join htoken (ih hmore)
  exact hall _ (fun token => ne_nil_of_mem_tokens) run h

/-- Nothing is joined to the command that a line begins with. -/
theorem join_command (text : List Char) (runs : List Run) :
    join ⟨.command, text⟩ runs = ⟨.command, text⟩ :: runs := by
  cases runs with
  | nil => rfl
  | cons next more => simp [join]

/-- The command that a line begins with ends where the first blank begins, or with the line. -/
theorem cut?_command (command : List Char) : cut? (':' :: command) =
    some (⟨.command, ':' :: command.takeWhile fun c => !Text.isBlank c⟩ ::
      runsOf (command.dropWhile fun c => !Text.isBlank c)) := by
  have hstop : (Text.findByte? Text.isBlank command).getD (byteCount command) + 1 =
      byteCount (':' :: command.takeWhile fun c => !Text.isBlank c) := by
    have hname := Text.getD_findByte? (fun c => !Text.isBlank c) command
    simp only [Bool.not_not] at hname
    rw [hname, Text.byteCount_cons, Nat.add_comm]
    rfl
  have hline : ':' :: command = (':' :: command.takeWhile fun c => !Text.isBlank c) ++
      command.dropWhile fun c => !Text.isBlank c := by simp
  rw [cut?, hstop, hline]
  generalize (':' :: command.takeWhile fun c => !Text.isBlank c) = name
  generalize (command.dropWhile fun c => !Text.isBlank c) = rest
  have hfirst : Text.slice? 0 (byteCount name) (name ++ rest) = some name :=
    Text.slice?_append [] name rest
  have hsecond : Text.slice? (byteCount name) (byteCount (name ++ rest)) (name ++ rest) =
      some rest := by
    simpa using Text.slice?_append name rest []
  have hcovers : Sweep.Covers (name ++ rest) ⟨[⟨.command, name⟩], rest⟩ := by
    simp [Sweep.Covers, textOf]
  simp only [hfirst, hsecond, Option.bind_eq_bind, Option.bind_some]
  rw [hcovers.run?_eq (by simp), reverse_foldl_extend (List.isChain_singleton _)]
  simp only [List.reverse_singleton, List.foldr_cons, List.foldr_nil, join_command, runsOf_eq]

/-- Cutting a line between bytes never fails, and gives the runs of the line. -/
theorem cut?_eq_classify (line : List Char) : cut? line = some (classify line) := by
  unfold classify
  split
  · exact cut?_command _
  · next text hcommand =>
    have hcovers : Sweep.Covers line ⟨[], line⟩ := rfl
    unfold cut?
    split
    · next rest => exact (hcommand rest rfl).elim
    · rw [hcovers.run?_eq (Nat.le_refl _), reverse_foldl_extend List.isChain_nil]
      rfl

/-- **Highlighting keeps the line.** Any line can be cut into runs, the runs put together are the
line, none of them is empty, and no two neighbours are both plain. -/
theorem cut?_covers (line : List Char) : ∃ runs, cut? line = some runs ∧
    runs.flatMap (·.text) = line ∧ (∀ run ∈ runs, run.text ≠ []) ∧
      runs.IsChain fun a b => ¬ (a.type = .plain ∧ b.type = .plain) := by
  refine ⟨classify line, cut?_eq_classify line, ?_⟩
  unfold classify
  split
  · next command =>
    refine ⟨?_, ?_, ?_⟩
    · have htext := textOf_runsOf (command.dropWhile fun c => !Text.isBlank c)
      simp only [textOf] at htext
      simp [htext]
    · refine List.forall_mem_cons.mpr ⟨List.cons_ne_nil _ _, fun run => ne_nil_of_mem_runsOf⟩
    · have happart := (apart_runsOf (command.dropWhile fun c => !Text.isBlank c)).join
        ⟨.command, ':' :: command.takeWhile fun c => !Text.isBlank c⟩
      rwa [join_command] at happart
  · next text _ =>
    exact ⟨textOf_runsOf _, fun run => ne_nil_of_mem_runsOf, apart_runsOf _⟩

end TraceTree.Highlight

import TraceTree.Proofs.Diagram.Brackets
import TraceTree.Proofs.Diagram.Expansion
import TraceTree.Proofs.Diagram.Divergence

set_option autoImplicit false

/-! # Bare diagrams

Of the words in a diagram, some come from the program and from the messages of faults. If these have
no brackets and no line breaks in them, then the brackets of the plain text are those of the subtrees,
and each line of the diagram is a line of the text (`Diagram.Bare.outline_lines`). -/

namespace TraceTree

open Text (Bare bare_append bare_nil Outline)

instance Text.decidableBare (t : List Char) : Decidable (Bare t) :=
  List.decidableBAll (fun c => c ≠ '[' ∧ c ≠ ']' ∧ c ≠ '\n') t

/-! ## Bare words -/

namespace Text

theorem bare_toList_append {a b : String} :
    Bare (a ++ b).toList ↔ Bare a.toList ∧ Bare b.toList := by
  rw [String.toList_append, bare_append]

theorem bare_blanks (n : Nat) : Bare (blanks n).toList := by
  intro c hc
  rw [blanks, String.toList_ofList] at hc
  rw [List.eq_of_mem_replicate hc]
  decide

theorem bare_toDigits (n : Nat) : Bare (Nat.toDigits 10 n) := by
  intro c hc
  have hdigit := Nat.isDigit_of_mem_toDigits (by decide) (by decide) hc
  refine ⟨?_, ?_, ?_⟩ <;> rintro rfl <;> exact absurd hdigit (by decide)

theorem bare_toString_int (i : Int) : Bare (toString i).toList := by
  obtain ⟨sign, n, htext, hsign⟩ := Markup.toList_toString_int i
  rw [htext, bare_append]
  refine ⟨?_, bare_toDigits n⟩
  rcases hsign with rfl | rfl <;> decide

theorem bare_toString_nat (n : Nat) : Bare (toString n).toList := bare_toString_int n

/-! ### Words made from other words -/

variable {sep : Char → Bool} {word new cs piece : List Char}

theorem subset_of_mem_splitAll (h : piece ∈ splitAll sep cs) : piece ⊆ cs := by
  induction cs generalizing piece with
  | nil =>
    rw [List.mem_singleton.mp h]
    exact List.nil_subset _
  | cons c cs ih =>
    rw [splitAll] at h
    split at h
    · rcases List.mem_cons.mp h with rfl | h
      · exact List.nil_subset _
      · exact List.subset_cons_of_subset _ (ih h)
    · split at h
      · rw [List.mem_singleton.mp h]
        exact List.cons_subset_cons c (List.nil_subset _)
      · next first more hsplit =>
        rw [hsplit] at ih
        rcases List.mem_cons.mp h with rfl | h
        · exact List.cons_subset_cons c (ih List.mem_cons_self)
        · exact List.subset_cons_of_subset _ (ih (List.mem_cons_of_mem _ h))

theorem trimBoth_subset (cs : List Char) : trimBoth cs ⊆ cs := by
  intro c hc
  rw [trimBoth, trimRight, List.mem_reverse] at hc
  have hleft := List.mem_reverse.mp ((List.dropWhile_sublist _).subset hc)
  exact (List.dropWhile_sublist _).subset hleft

theorem Bare.replaceFrom (hnew : Bare new) (hcs : Bare cs) (skip : Nat) :
    Bare (replaceFrom word new skip cs) := by
  fun_induction Text.replaceFrom word new skip cs with
  | case1 => exact bare_nil
  | case2 _ c cs ih => exact ih (List.forall_mem_cons.mp hcs).2
  | case3 c cs _ ih => exact bare_append.mpr ⟨hnew, ih (List.forall_mem_cons.mp hcs).2⟩
  | case4 c cs _ ih =>
    obtain ⟨hc, hcs⟩ := List.forall_mem_cons.mp hcs
    exact List.forall_mem_cons.mpr ⟨hc, ih hcs⟩

theorem bare_replaceAll {word new text : String} (hnew : Bare new.toList) (h : Bare text.toList) :
    Bare (replaceAll word new text).toList := by
  rw [replaceAll, String.toList_ofList]
  exact Bare.replaceFrom hnew h 0

theorem bare_braces {text : String} (h : Bare text.toList) :
    Bare ("\x7b" ++ text ++ "\x7d").toList := by
  simp only [bare_toList_append]
  exact ⟨⟨by decide, h⟩, by decide⟩

theorem bare_intercalate {separator : String} {texts : List String} (hsep : Bare separator.toList)
    (h : ∀ text ∈ texts, Bare text.toList) : Bare (separator.intercalate texts).toList := by
  induction texts with
  | nil => exact bare_nil
  | cons text more ih =>
    obtain ⟨htext, hmore⟩ := List.forall_mem_cons.mp h
    cases more with
    | nil => rwa [String.intercalate_singleton]
    | cons next rest =>
      rw [String.intercalate_cons_cons, bare_toList_append, bare_toList_append]
      exact ⟨⟨htext, hsep⟩, ih hmore⟩

end Text

/-! ## Labels -/

namespace Markup

theorem bare_subscriptDigits (n : Int) : Bare (subscriptDigits n).toList := by
  intro c hc
  rw [subscriptDigits, String.toList_ofList] at hc
  obtain ⟨d, _, rfl⟩ := List.mem_map.mp hc
  have hle := toNat_lowered d
  refine ⟨?_, ?_, ?_⟩ <;> intro heq <;> rw [heq] at hle <;> exact absurd hle (by decide)

theorem bare_entry (step : Nat) (scope : ScopeNumber) : Bare (entry .plain step scope).toList := by
  simp only [entry, Text.bare_toList_append]
  exact ⟨⟨⟨Text.bare_toString_nat step, by decide⟩, bare_subscriptDigits _⟩, by decide⟩

theorem bare_exit (step : Nat) (scope : ScopeNumber) : Bare (exit .plain step scope).toList := by
  simp only [exit, Text.bare_toList_append]
  exact ⟨⟨⟨by decide, Text.bare_toString_nat step⟩, by decide⟩, bare_subscriptDigits _⟩

theorem bare_field {name : String} (h : Bare name.toList) : Bare (field .plain name).toList := by
  rw [field, Text.bare_toList_append]
  exact ⟨h, by decide⟩

theorem bare_roof {content : String} (h : Bare content.toList) :
    Bare (roof .plain content).toList := Text.bare_braces h

theorem bare_edge (step : Nat) : Bare (edge .plain ("Val " ++ toString step)).toList := by
  show Bare ("<" ++ ("Val " ++ toString step) ++ ">").toList
  simp only [Text.bare_toList_append]
  exact ⟨⟨by decide, by decide, Text.bare_toString_nat step⟩, by decide⟩

/-- A message on one leaf has no characters that it did not have before, but for shortened words. -/
theorem bare_messageLeaf {message : String} (h : Bare message.toList) :
    Bare (messageLeaf .plain message).toList := by
  have hshort : Bare (Text.replaceAll "BOOLEAN" "BOOL"
      (Text.replaceAll "INTEGER" "INT" message)).toList :=
    Text.bare_replaceAll (by decide) (Text.bare_replaceAll (by decide) h)
  rw [messageLeaf]
  refine Text.bare_intercalate (by decide) fun text htext => ?_
  obtain ⟨part, hpart, rfl⟩ := List.mem_map.mp htext
  obtain ⟨piece, hpiece, rfl⟩ := List.mem_map.mp hpart
  rw [Markup.text, Text.trim, String.toList_ofList, String.toList_ofList]
  exact (hshort.of_subset (Text.subset_of_mem_splitAll hpiece)).of_subset (Text.trimBoth_subset piece)

end Markup

namespace Diagram

theorem bare_valueLabel (v : Value) (number : Option Nat) :
    Bare (valueLabel .plain v number).toList := by
  have htype : Bare v.type.name.toList := by
    cases v.type <;> decide
  cases number with
  | none => exact htype
  | some n =>
    show Bare (v.type.name ++ Markup.subscriptDigits n).toList
    exact Text.bare_toList_append.mpr ⟨htype, Markup.bare_subscriptDigits n⟩

theorem bare_constantWord (v : Value) : Bare (constantWord v).toList := by
  unfold constantWord
  split <;> decide

theorem bare_nodeLabel (origin : Node) (entries exits : List Visit) :
    Bare (nodeLabel .plain origin entries exits).toList := by
  have hmarks : ∀ (marks : List Visit) (mark : Visit → String), (∀ v, Bare (mark v).toList) →
      Bare (String.join (marks.map mark)).toList := by
    intro marks mark hmark
    rw [String.toList_join]
    exact List.forall_mem_flatMap.mpr (List.forall_mem_map.mpr fun v _ => hmark v)
  have htype : Bare origin.typeName.toList := by
    cases origin <;> simp only [Node.typeName] <;> decide
  simp only [nodeLabel, Text.bare_toList_append]
  exact ⟨⟨hmarks _ _ fun v => Markup.bare_entry v.step v.scope, htype⟩,
    hmarks _ _ fun v => Markup.bare_exit v.step v.scope⟩

theorem bare_indent (depth : Nat) : Bare (indent depth).toList := Text.bare_blanks _

end Diagram

/-! ## Texts of lines -/

/-- Lines with a line break after each of them. -/
def Text.asLines (lines : List String) : List Char := lines.flatMap (·.toList ++ ['\n'])

namespace Text

@[simp] theorem asLines_nil : asLines [] = [] := rfl

@[simp] theorem asLines_cons (line : String) (lines : List String) :
    asLines (line :: lines) = line.toList ++ '\n' :: asLines lines := by
  simp [asLines]

@[simp] theorem asLines_append (first second : List String) :
    asLines (first ++ second) = asLines first ++ asLines second := List.flatMap_append

theorem toList_intercalate_newline {lines : List String} (h : lines ≠ []) :
    ("\n".intercalate lines ++ "\n").toList = asLines lines := by
  induction lines with
  | nil => exact absurd rfl h
  | cons line more ih =>
    cases more with
    | nil => simp
    | cons next rest =>
      have ih := ih (List.cons_ne_nil _ _)
      rw [asLines_cons, ← ih, String.intercalate_cons_cons]
      simp

end Text

namespace Diagram

variable {depth : Nat} {label content word : String}

/-- A line in which there are no brackets. -/
theorem outline_line (h : Bare word.toList) : Outline (Text.asLines [indent depth ++ word]) := by
  have hline : Bare (indent depth ++ word).toList :=
    Text.bare_toList_append.mpr ⟨bare_indent depth, h⟩
  simpa using Outline.line hline

/-- A subtree on one line. -/
theorem outline_onOneLine (hlabel : Bare label.toList) (hcontent : Bare content.toList) :
    Outline (Text.asLines [indent depth ++ onOneLine label content]) := by
  have hinside : Bare ("\x7b" ++ label ++ "\x7d" ++ " " ++ content ++ " ").toList := by
    rw [Text.bare_toList_append, Text.bare_toList_append, Text.bare_toList_append]
    exact ⟨⟨⟨Text.bare_braces hlabel, by decide⟩, hcontent⟩, by decide⟩
  simpa [onOneLine, Markup.opening] using Outline.leaf (bare_indent depth) hinside

/-- A subtree of several lines. -/
theorem outline_subtree {below : List String} (hlabel : Bare label.toList)
    (hbelow : Outline (Text.asLines below)) :
    Outline (Text.asLines ((indent depth ++ Markup.opening label) ::
      (below ++ [indent depth ++ "]"]))) := by
  simpa [Markup.opening] using
    Outline.subtree (bare_indent depth) (Text.bare_braces hlabel) hbelow

theorem outline_linesAll {ds : List Diagram}
    (h : ∀ d ∈ ds, Outline (Text.asLines (d.lines .plain depth))) :
    Outline (Text.asLines (linesAll .plain depth ds)) := by
  induction ds with
  | nil => exact .nil
  | cons d ds ih =>
    obtain ⟨hd, hds⟩ := List.forall_mem_cons.mp h
    rw [linesAll, Text.asLines_append]
    exact hd.append (ih hds)

/-! ## Bare diagrams -/

/-- No word in a diagram has brackets or line breaks in it. -/
inductive Bare : Diagram → Prop where
  | node {origin : Node} {entries exits : List Visit} {parts : List Diagram}
      (inside : ∀ d ∈ parts, Bare d) : Bare (.node origin entries exits parts)
  | field {name : String} {parts : List Diagram} (label : Text.Bare name.toList)
      (inside : ∀ d ∈ parts, Bare d) : Bare (.field name parts)
  | result {step : Nat} {drawing : Diagram} (inside : Bare drawing) : Bare (.result step drawing)
  | text {content : String} (word : Text.Bare content.toList) : Bare (.text content)
  | operator {spelling : String} (word : Text.Bare spelling.toList) : Bare (.operator spelling)
  | message {content : String} (word : Text.Bare content.toList) : Bare (.message content)
  | missing : Bare .missing
  | value {v : Value} {number : Option Nat} {parts : List Diagram} (inside : ∀ d ∈ parts, Bare d) :
      Bare (.value v number parts)
  | constant {v : Value} : Bare (.constant v)
  | fault {v : Value} {number : Option Nat} {content : String} (word : Text.Bare content.toList) :
      Bare (.fault v number content)
  | cycle {v : Value} {number : Option Nat} : Bare (.cycle v number)
  | reference {v : Value} {number : Nat} : Bare (.reference v number)

/-- **The lines of a bare diagram** are lines without brackets and subtrees. -/
theorem Bare.outline_lines {d : Diagram} (h : d.Bare) (depth : Nat) :
    Outline (Text.asLines (d.lines .plain depth)) := by
  induction h generalizing depth with
  | node _ ih =>
    rw [lines]
    exact outline_subtree (bare_nodeLabel _ _ _) (outline_linesAll fun d hd => ih d hd _)
  | field label _ ih =>
    rw [lines]
    exact outline_subtree (Markup.bare_field label) (outline_linesAll fun d hd => ih d hd _)
  | @result step drawing _ ih =>
    rw [lines, ← List.singleton_append, Text.asLines_append]
    exact (outline_line (Markup.bare_edge step)).append (ih depth)
  | text word | operator word =>
    rw [lines]
    exact outline_line word
  | message word =>
    have hline : Outline (Text.asLines [indent depth ++ _]) := outline_line (Text.bare_braces word)
    rw [lines]
    simpa only [String.append_assoc] using hline
  | missing =>
    rw [lines]
    exact outline_line (by decide)
  | value _ ih =>
    rw [lines]
    exact outline_subtree (bare_valueLabel _ _) (outline_linesAll fun d hd => ih d hd _)
  | @constant v =>
    rw [lines]
    exact outline_line (bare_constantWord v)
  | fault word =>
    rw [lines]
    exact outline_onOneLine (bare_valueLabel _ _) (Markup.bare_roof (Markup.bare_messageLeaf word))
  | cycle =>
    rw [lines]
    exact outline_onOneLine (bare_valueLabel _ _) (by decide)
  | @reference v number =>
    rw [lines]
    -- only an integer is written again behind its number
    cases v with
    | integer id n =>
      exact outline_onOneLine (bare_valueLabel _ _) (Markup.bare_roof (Text.bare_toString_int _))
    | _ => exact outline_line (bare_valueLabel _ _)

/-- **The tree of a node is well-formed** if its diagram is bare. -/
theorem wellBracketed_node {origin : Node} {entries exits : List Visit} {parts : List Diagram}
    (h : (node origin entries exits parts).Bare) :
    Text.WellBracketed ((node origin entries exits parts).write .plain).toList := by
  cases h with
  | node inside =>
    -- the node itself is not indented, so its text begins and ends with its brackets
    have hinside := outline_linesAll fun d hd => (inside d hd).outline_lines 1
    have hlines : (node origin entries exits parts).lines .plain 0 ≠ [] := by simp [lines]
    rw [write, Markup.tree, Text.toList_intercalate_newline hlines, lines]
    simpa [indent, Text.blanks, Markup.opening] using
      Outline.wellBracketed (Text.bare_braces (bare_nodeLabel origin entries exits)) hinside

end Diagram

end TraceTree

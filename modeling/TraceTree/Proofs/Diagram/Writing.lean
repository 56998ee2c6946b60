import TraceTree.Proofs.Diagram.Coverage

set_option autoImplicit false

/-! # What drawings look like when they are written

The lines of a drawing hold the lines of each diagram in it, all in one piece, at some depth
(`Diagram.Contains.lines_infix`). So whatever occurs in a drawing can be read off its text. -/

namespace TraceTree

/-! ## Texts within texts -/

/-- A text stands somewhere in another one. -/
def Text.OccursIn (part whole : String) : Prop := ∃ before after, whole = before ++ part ++ after

namespace Text.OccursIn

variable {part whole text : String} {texts : List String}

theorem append_right (h : OccursIn part whole) (text : String) : OccursIn part (whole ++ text) := by
  obtain ⟨before, after, rfl⟩ := h
  exact ⟨before, after ++ text, by simp only [String.append_assoc]⟩

theorem append_left (h : OccursIn part whole) (text : String) : OccursIn part (text ++ whole) := by
  obtain ⟨before, after, rfl⟩ := h
  exact ⟨text ++ before, after, by simp only [String.append_assoc]⟩

theorem refl (text : String) : OccursIn text text :=
  ⟨"", "", by rw [String.empty_append, String.append_empty]⟩

theorem trans (h : OccursIn part text) (h' : OccursIn text whole) : OccursIn part whole := by
  obtain ⟨before, after, rfl⟩ := h'
  exact (h.append_left before).append_right after

theorem join (h : text ∈ texts) : OccursIn text (String.join texts) := by
  induction texts with
  | nil => exact absurd h List.not_mem_nil
  | cons first more ih =>
    rw [String.join_cons]
    rcases List.mem_cons.mp h with rfl | h
    · exact (refl text).append_right _
    · exact (ih h).append_left first

theorem intercalate (separator : String) (h : text ∈ texts) :
    OccursIn text (separator.intercalate texts) := by
  induction texts with
  | nil => exact absurd h List.not_mem_nil
  | cons first more ih =>
    cases more with
    | nil =>
      rw [String.intercalate_singleton, List.mem_singleton.mp h]
      exact refl first
    | cons second rest =>
      rw [String.intercalate_cons_cons]
      rcases List.mem_cons.mp h with rfl | h
      · exact ((refl text).append_right _).append_right _
      · exact (ih h).append_left _

end Text.OccursIn

/-! ## Marks -/

namespace Markup

theorem occursIn_tree (m : Markup) (body : String) : Text.OccursIn body (m.tree body) := by
  cases m with
  | plain => exact (Text.OccursIn.refl body).append_right _
  | qtree => exact ((Text.OccursIn.refl body).append_left _).append_right _

/-- The mark of an entry tells its step. -/
theorem step_occursIn_entry (m : Markup) (step : Nat) (scope : ScopeNumber) :
    Text.OccursIn (toString step) (m.entry step scope) := by
  have h := Text.OccursIn.refl (toString step)
  cases m <;> exact ((h.append_right _).append_right _).append_right _

/-- The mark of an exit tells its step. -/
theorem step_occursIn_exit (m : Markup) (step : Nat) (scope : ScopeNumber) :
    Text.OccursIn (toString step) (m.exit step scope) := by
  have h := (Text.OccursIn.refl (toString step)).append_left
  cases m with
  | plain => exact ((h _).append_right _).append_right _
  | qtree => exact (((h _).append_right _).append_right _).append_right _

end Markup

namespace Diagram

/-- The annotation to the left of a node: the marks of its entries. -/
def leftMarks (m : Markup) (entries : List Visit) : String :=
  String.join (entries.map (fun v => m.entry v.step v.scope))

/-- The annotation to the right of a node: the marks of its exits. -/
def rightMarks (m : Markup) (exits : List Visit) : String :=
  String.join (exits.map (fun v => m.exit v.step v.scope))

/-! ## Lines -/

variable {m : Markup}

/-- A drawn node stands between its label and a closing bracket. -/
theorem lines_node (m : Markup) (depth : Nat) (origin : Node) (entries exits : List Visit)
    (parts : List Diagram) :
    (node origin entries exits parts).lines m depth =
      (indent depth ++
        Markup.opening (leftMarks m entries ++ m.text origin.typeName ++ rightMarks m exits)) ::
      (linesAll m (depth + 1) parts ++ [indent depth ++ "]"]) := by
  rw [lines, nodeLabel, leftMarks, rightMarks]

/-- A result hangs from an edge. -/
theorem edge_mem_lines (m : Markup) (depth step : Nat) (drawing : Diagram) :
    indent depth ++ m.edge ("Val " ++ toString step) ∈ (result step drawing).lines m depth := by
  rw [lines]
  exact List.mem_cons_self

theorem lines_infix_linesAll {d : Diagram} {ds : List Diagram} (h : d ∈ ds) (depth : Nat) :
    d.lines m depth <:+: linesAll m depth ds := by
  induction ds with
  | nil => exact absurd h List.not_mem_nil
  | cons first more ih =>
    rw [linesAll]
    rcases List.mem_cons.mp h with rfl | h
    · exact List.infix_append [] _ _
    · exact (ih h).trans (List.suffix_append _ _).isInfix

/-- The parts of a diagram are written within it. -/
theorem linesAll_parts_infix (d : Diagram) (depth : Nat) :
    ∃ depth', linesAll m depth' d.parts <:+: d.lines m depth := by
  cases d with
  | node origin entries exits parts =>
    rw [lines]
    exact ⟨depth + 1, List.infix_cons (List.prefix_append _ _).isInfix⟩
  | field name parts =>
    rw [lines]
    exact ⟨depth + 1, List.infix_cons (List.prefix_append _ _).isInfix⟩
  | value v number parts =>
    rw [lines]
    exact ⟨depth + 1, List.infix_cons (List.prefix_append _ _).isInfix⟩
  | result step drawing =>
    refine ⟨depth, ?_⟩
    rw [lines, parts, linesAll, linesAll, List.append_nil]
    exact List.infix_cons (List.infix_refl _)
  | _ =>
    refine ⟨depth, ?_⟩
    show linesAll m depth [] <:+: _
    rw [linesAll]
    exact List.nil_infix

/-- **What is in a diagram is written in one piece.** -/
theorem Contains.lines_infix {d inner : Diagram} (h : d.Contains inner) (depth : Nat) :
    ∃ depth', inner.lines m depth' <:+: d.lines m depth := by
  induction h generalizing depth with
  | self => exact ⟨depth, List.infix_refl _⟩
  | @part d part inner mem _ ih =>
    obtain ⟨depth₁, hparts⟩ := linesAll_parts_infix (m := m) d depth
    obtain ⟨depth₂, hinner⟩ := ih depth₁
    exact ⟨depth₂, hinner.trans ((lines_infix_linesAll mem depth₁).trans hparts)⟩

end Diagram

end TraceTree

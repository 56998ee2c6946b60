import Mathlib.Data.List.Forall2
import Mathlib.Data.List.Nodup
import TraceTree.Proofs.Diagram.Coverage

set_option autoImplicit false

/-! # Where values appear

A value appears in a diagram where it is drawn in full, as a short form of itself or as a reference.
`Diagram.appearances` lists these places in the order in which they are written, each with the
values in whose drawings it lies. `Scene.Accounts` is what drawing keeps to: it goes through the
appearances and says of each whether the value gets a number there or has one already. -/

namespace TraceTree

/-- A place where a value appears: its depth, the values drawn around it from the inside outward, and
the drawing. -/
structure Appearance where
  depth : Nat
  around : List Value
  drawing : Diagram

namespace Diagram

/-- The value that a diagram shows. -/
def shown? : Diagram → Option Value
  | value v _ _ | constant v | fault v _ _ | cycle v _ | reference v _ => some v
  | _ => none

mutual

/-- The appearances of values in a diagram at a depth, with the values drawn around it. -/
def appearances (depth : Nat) (around : List Value) : Diagram → List Appearance
  | node _ _ _ parts | field _ parts => appearancesAll (depth + 1) around parts
  | result _ drawing => appearances depth around drawing
  | text _ | operator _ | message _ | missing => []
  | value v number parts =>
    ⟨depth, around, value v number parts⟩ :: appearancesAll (depth + 1) (v :: around) parts
  | constant v => [⟨depth, around, constant v⟩]
  | fault v number content => [⟨depth, around, fault v number content⟩]
  | cycle v number => [⟨depth, around, cycle v number⟩]
  | reference v number => [⟨depth, around, reference v number⟩]

/-- The appearances of values in diagrams. -/
def appearancesAll (depth : Nat) (around : List Value) : List Diagram → List Appearance
  | [] => []
  | d :: ds => appearances depth around d ++ appearancesAll depth around ds

end

theorem appearancesAll_append (depth : Nat) (around : List Value) (ds ds' : List Diagram) :
    appearancesAll depth around (ds ++ ds') =
      appearancesAll depth around ds ++ appearancesAll depth around ds' := by
  induction ds with
  | nil => rfl
  | cons d ds ih =>
    rw [List.cons_append, appearancesAll, appearancesAll, ih, List.append_assoc]

@[simp] theorem appearancesAll_singleton (depth : Nat) (around : List Value) (d : Diagram) :
    appearancesAll depth around [d] = appearances depth around d := by
  rw [appearancesAll, appearancesAll, List.append_nil]

/-- The first line of the drawing at an appearance. -/
def firstLine (m : Markup) (a : Appearance) : List String := (a.drawing.lines m a.depth).take 1

mutual

/-- **Appearances are written in their order.** -/
theorem firstLines_sublist_lines (m : Markup) (depth : Nat) (around : List Value) (d : Diagram) :
    ((d.appearances depth around).flatMap (firstLine m)).Sublist (d.lines m depth) := by
  -- what is written in one line, or opens with one and has its parts below
  have hparts : ∀ (ds : List Diagram) (around : List Value) (opening closing : String),
      ((appearancesAll (depth + 1) around ds).flatMap (firstLine m)).Sublist
        (linesAll m (depth + 1) ds) →
      ((appearancesAll (depth + 1) around ds).flatMap (firstLine m)).Sublist
        (opening :: (linesAll m (depth + 1) ds ++ [closing])) :=
    fun _ _ _ _ h => (h.trans (List.sublist_append_left _ _)).cons _
  match d with
  | node origin entries exits parts =>
    rw [appearances, lines]
    exact hparts _ _ _ _ (firstLines_sublist_linesAll m (depth + 1) around parts)
  | field name parts =>
    rw [appearances, lines]
    exact hparts _ _ _ _ (firstLines_sublist_linesAll m (depth + 1) around parts)
  | result step drawing =>
    rw [appearances, lines]
    exact (firstLines_sublist_lines m depth around drawing).cons _
  | value v number parts =>
    rw [appearances, List.flatMap_cons, firstLine, lines]
    exact ((firstLines_sublist_linesAll m (depth + 1) (v :: around) parts).trans
      (List.sublist_append_left _ _)).cons_cons _
  | text _ | operator _ | message _ | missing =>
    rw [appearances]
    exact List.nil_sublist _
  | constant v | fault v number content | cycle v number | reference v number =>
    rw [appearances, List.flatMap_singleton, firstLine]
    exact List.take_sublist _ _

theorem firstLines_sublist_linesAll (m : Markup) (depth : Nat) (around : List Value)
    (ds : List Diagram) :
    ((appearancesAll depth around ds).flatMap (firstLine m)).Sublist (linesAll m depth ds) := by
  match ds with
  | [] => exact List.nil_sublist _
  | d :: ds =>
    rw [appearancesAll, linesAll, List.flatMap_append]
    exact (firstLines_sublist_lines m depth around d).append
      (firstLines_sublist_linesAll m depth around ds)

end

end Diagram

/-! ## Drawings of values -/

/-- A function with the same body is being drawn around an appearance of a value. -/
def Appearance.Inside (a : Appearance) (v : Value) : Prop :=
  ∃ id closure id' closure', v = .function id closure ∧ .function id' closure' ∈ a.around ∧
    closure'.body.id = closure.body.id

namespace Scene

variable {s : Scene}

/-- A diagram is that of a node, with its entries and exits. -/
def DrawsNode (s : Scene) (n : Node) (d : Diagram) : Prop :=
  ∃ parts, d = .node n (s.entriesOf n) (s.exitVisits n) parts

/-- A diagram shows a value in full, where truth values, null and faults are single leaves. -/
def Full (s : Scene) (number : Option Nat) (d : Diagram) : Value → Prop
  | .integer id n => d = .value (.integer id n) number [.field "Value" [.text (toString n.toInt)]]
  | .boolean id b => d = .constant (.boolean id b)
  | .null id => d = .constant (.null id)
  | .returned id inner => ∃ drawing, drawing.shown? = some inner ∧
      d = .value (.returned id inner) number [.field "ReturnValue" [drawing]]
  | .error id fault => d = .fault (.error id fault) number fault.message
  | .function id closure => ∃ names code, List.Forall₂ s.DrawsNode closure.parameters names ∧
      s.DrawsNode closure.body code ∧
      d = .value (.function id closure) number [.field "Parameters" names, .field "Body" [code]]

/-- A value is drawn in full, unless it is a function whose body is being drawn around. -/
def Draws (s : Scene) (number : Option Nat) (a : Appearance) (v : Value) : Prop :=
  (¬ a.Inside v ∧ s.Full number a.drawing v) ∨ (a.Inside v ∧ a.drawing = .cycle v number)

/-- What drawing keeps to: `seen` are the values numbered before the appearances, `after` those
numbered then. A value that is used in several places is drawn with the next number where it appears
for the first time, and as a reference to its number later. -/
inductive Accounts (s : Scene) : List Value → List Appearance → List Value → Prop where
  | nil {seen : List Value} : Accounts s seen [] seen
  | unshared {seen after : List Value} {a : Appearance} {as : List Appearance} {v : Value}
      (shown : a.drawing.shown? = some v) (unshared : s.isShared v = false)
      (rest : Accounts s seen as after) : Accounts s seen (a :: as) after
  | first {seen after : List Value} {a : Appearance} {as : List Appearance} {v : Value}
      (shown : a.drawing.shown? = some v) (held : s.Holds v) (new : v ∉ seen)
      (draws : s.Draws (some seen.length) a v) (rest : Accounts s (seen ++ [v]) as after) :
      Accounts s seen (a :: as) after
  | again {seen after : List Value} {a : Appearance} {as : List Appearance} {v : Value}
      {number : Nat} (numbered : seen[number]? = some v) (drawing : a.drawing = .reference v number)
      (rest : Accounts s seen as after) : Accounts s seen (a :: as) after

/-- The first appearance of a value has its number and is its drawing, and all later ones are
references to the number. -/
def Shares (s : Scene) (numbers : List Value) (as : List Appearance) (v : Value) : Prop :=
  ∃ before a later k, as = before ++ a :: later ∧ (∀ b ∈ before, b.drawing.shown? ≠ some v) ∧
    a.drawing.shown? = some v ∧ numbers[k]? = some v ∧ s.Draws (some k) a v ∧
      ∀ b ∈ later, b.drawing.shown? = some v → b.drawing = .reference v k

theorem Shares.cons {numbers : List Value} {as : List Appearance} {a : Appearance} {v : Value}
    (ha : a.drawing.shown? ≠ some v) (h : s.Shares numbers as v) : s.Shares numbers (a :: as) v := by
  obtain ⟨before, a', later, k, rfl, hbefore, hrest⟩ := h
  exact ⟨a :: before, a', later, k, rfl, List.forall_mem_cons.mpr ⟨ha, hbefore⟩, hrest⟩

namespace Accounts

variable {seen seen' after : List Value} {as bs : List Appearance} {v : Value}

theorem append (h : s.Accounts seen as seen') (h' : s.Accounts seen' bs after) :
    s.Accounts seen (as ++ bs) after := by
  induction h with
  | nil => exact h'
  | unshared shown unshared _ ih => exact .unshared shown unshared (ih h')
  | first shown held new draws _ ih => exact .first shown held new draws (ih h')
  | again numbered drawing _ ih => exact .again numbered drawing (ih h')

/-- Only values of the scene are numbered. -/
theorem holds (h : s.Accounts seen as after) (hseen : ∀ u ∈ seen, s.Holds u) :
    ∀ u ∈ after, s.Holds u := by
  induction h with
  | nil => exact hseen
  | unshared _ _ _ ih => exact ih hseen
  | first _ held _ _ _ ih =>
    exact ih (List.forall_mem_append.mpr ⟨hseen, List.forall_mem_singleton.mpr held⟩)
  | again _ _ _ ih => exact ih hseen

/-- A value keeps its number. -/
theorem numbered_mono (h : s.Accounts seen as after) {k : Nat} (hk : seen[k]? = some v) :
    after[k]? = some v := by
  induction h with
  | nil => exact hk
  | unshared _ _ _ ih => exact ih hk
  | first _ _ _ _ _ ih =>
    refine ih ?_
    rw [List.getElem?_append_left (List.getElem?_eq_some_iff.mp hk).1]
    exact hk
  | again _ _ _ ih => exact ih hk

theorem nodup_concat (hnodup : seen.Nodup) (hnew : v ∉ seen) : (seen ++ [v]).Nodup :=
  hnodup.append (List.nodup_singleton v) (List.disjoint_singleton.mpr hnew)

/-- A value that has a number appears as a reference to it. -/
theorem reference_of_numbered (h : s.Accounts seen as after) (hnodup : seen.Nodup) {k : Nat}
    (hk : seen[k]? = some v) (hv : s.isShared v = true) {a : Appearance} (ha : a ∈ as)
    (hshown : a.drawing.shown? = some v) : a.drawing = .reference v k := by
  induction h with
  | nil => exact absurd ha List.not_mem_nil
  | unshared shown unshared _ ih =>
    rcases List.mem_cons.mp ha with rfl | ha
    · rw [Option.some.inj (shown.symm.trans hshown), hv] at unshared
      cases unshared
    · exact ih hnodup hk ha
  | first shown held new draws _ ih =>
    rcases List.mem_cons.mp ha with rfl | ha
    · rw [Option.some.inj (shown.symm.trans hshown)] at new
      exact absurd (List.mem_of_getElem? hk) new
    · refine ih (nodup_concat hnodup new) ?_ ha
      rw [List.getElem?_append_left (List.getElem?_eq_some_iff.mp hk).1]
      exact hk
  | @again seen _ _ _ u number numbered drawing _ ih =>
    rcases List.mem_cons.mp ha with rfl | ha
    · rw [drawing] at hshown ⊢
      obtain rfl : u = v := Option.some.inj hshown
      have hlt := (List.getElem?_eq_some_iff.mp hk).1
      rw [(List.getElem?_inj hlt hnodup).mp (hk.trans numbered.symm)]
    · exact ih hnodup hk ha

/-- **A shared value gets its number where it appears for the first time,** and appears as a reference
to that number from then on. -/
theorem shares (h : s.Accounts seen as after) (hnodup : seen.Nodup) (hv : s.isShared v = true)
    (hnew : v ∉ seen) (happears : ∃ a ∈ as, a.drawing.shown? = some v) : s.Shares after as v := by
  obtain ⟨a, ha, hshown⟩ := happears
  induction h with
  | nil => exact absurd ha List.not_mem_nil
  | @unshared _ _ b _ u shown unshared rest ih =>
    have hne : u ≠ v := by
      rintro rfl
      rw [hv] at unshared
      cases unshared
    refine Shares.cons (fun hb => hne (Option.some.inj (shown.symm.trans hb))) (ih hnodup hnew ?_)
    exact (List.mem_cons.mp ha).resolve_left fun heq =>
      hne (Option.some.inj (shown.symm.trans (heq ▸ hshown)))
  | @first seen _ b _ u shown held new draws rest ih =>
    have hnodup' := nodup_concat hnodup new
    by_cases hu : u = v
    · subst hu
      have hk : (seen ++ [u])[seen.length]? = some u := List.getElem?_concat_length
      exact ⟨[], b, _, seen.length, rfl, fun _ hb => absurd hb List.not_mem_nil, shown,
        rest.numbered_mono hk, draws, fun b hb hshown =>
          rest.reference_of_numbered hnodup' hk hv hb hshown⟩
    · refine Shares.cons (fun hb => hu (Option.some.inj (shown.symm.trans hb))) (ih hnodup' ?_ ?_)
      · intro hmem
        rcases List.mem_append.mp hmem with hmem | hmem
        · exact hnew hmem
        · exact hu (List.mem_singleton.mp hmem).symm
      · exact (List.mem_cons.mp ha).resolve_left fun heq =>
          hu (Option.some.inj (shown.symm.trans (heq ▸ hshown)))
  | @again seen _ b _ u number numbered drawing rest ih =>
    have hne : u ≠ v := by
      rintro rfl
      exact hnew (List.mem_of_getElem? numbered)
    have hother : b.drawing.shown? ≠ some v := by
      rw [drawing]
      exact fun heq => hne (Option.some.inj heq)
    exact Shares.cons hother (ih hnodup hnew
      ((List.mem_cons.mp ha).resolve_left fun heq => hother (heq ▸ hshown)))

end Accounts

end Scene

end TraceTree

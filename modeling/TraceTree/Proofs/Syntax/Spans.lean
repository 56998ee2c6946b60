import TraceTree.Proofs.Eval.Identity
import TraceTree.Proofs.Grammar.Parts
import TraceTree.Proofs.Grammar.Places
import TraceTree.Proofs.Syntax.Reading

set_option autoImplicit false

/-! # Spans inside one another

The spans of the pairs of a match lie one after the other and inside one another (`Pair.Between`).
What it means for a tree to be placed in a text is said node by node (`Node.PlacedAt`): a span is
recorded for the node, its ends lie between characters, it spells what the node stands for, and the
spans of the children lie in it one after the other. -/

namespace TraceTree

/-! ## Spans in order -/

/-- The spans lie one after the other between two offsets, and none is empty. -/
def Span.InOrder : Nat → List Span → Nat → Prop
  | lo, [], hi => lo ≤ hi
  | lo, s :: more, hi => lo ≤ s.start ∧ s.start < s.stop ∧ InOrder s.stop more hi

namespace Span.InOrder

variable {lo lo' mid hi : Nat} {spans more : List Span}

theorem le (h : InOrder lo spans hi) : lo ≤ hi := by
  induction spans generalizing lo with
  | nil => exact h
  | cons s more ih => exact Nat.le_trans h.1 (Nat.le_trans (Nat.le_of_lt h.2.1) (ih h.2.2))

theorem mono (hlo : lo' ≤ lo) (h : InOrder lo spans hi) : InOrder lo' spans hi := by
  cases spans with
  | nil => exact Nat.le_trans hlo h
  | cons s more => exact ⟨Nat.le_trans hlo h.1, h.2⟩

theorem append (h : InOrder lo spans mid) (hmore : InOrder mid more hi) :
    InOrder lo (spans ++ more) hi := by
  induction spans generalizing lo with
  | nil => exact hmore.mono h
  | cons s spans ih => exact ⟨h.1, h.2.1, ih h.2.2⟩

theorem mem (h : InOrder lo spans hi) {s : Span} (hs : s ∈ spans) :
    lo ≤ s.start ∧ s.start < s.stop ∧ s.stop ≤ hi := by
  induction spans generalizing lo with
  | nil => exact absurd hs List.not_mem_nil
  | cons t more ih =>
    rcases List.mem_cons.mp hs with rfl | hmore
    · exact ⟨h.1, h.2.1, h.2.2.le⟩
    · obtain ⟨hlo, hne, hhi⟩ := ih h.2.2 hmore
      exact ⟨Nat.le_trans h.1 (Nat.le_trans (Nat.le_of_lt h.2.1) hlo), hne, hhi⟩

/-- Of two spans in order the first one ends before the second begins. -/
theorem pairwise (h : InOrder lo spans hi) :
    spans.Pairwise fun s t => s.stop ≤ t.start ∧ s.start < t.start := by
  induction spans generalizing lo with
  | nil => exact .nil
  | cons s more ih =>
    refine .cons (fun t ht => ?_) (ih h.2.2)
    have hlo := (h.2.2.mem ht).1
    exact ⟨hlo, Nat.lt_of_lt_of_le h.2.1 hlo⟩

end Span.InOrder

/-! ## Pairs in a text -/

/-- The pairs lie one after the other in a text, between two offsets. -/
def Pair.Between (source : String) (lo : Nat) (pairs : List Pair) (hi : Nat) : Prop :=
  ∃ c d, (Cursor.ofText source.toList).LeadsTo c ∧ Pair.Spread c pairs d ∧
    lo ≤ c.offset ∧ d.offset ≤ hi

/-- A pair lies in a text: it has the text that its span covers, and the pairs inside it lie between
its ends. -/
structure Pair.InText (source : String) (p : Pair) : Prop where
  start_valid : String.Pos.Raw.IsValid source ⟨p.span.start⟩
  stop_valid : String.Pos.Raw.IsValid source ⟨p.span.stop⟩
  least : p.span.start + p.rule.least ≤ p.span.stop
  slice_eq : p.span.slice source = String.ofList p.text
  inner : Pair.Between source p.span.start p.children p.span.stop

namespace Pair.Between

variable {source : String} {lo hi : Nat} {p : Pair} {more : List Pair}

theorem le (h : Between source lo more hi) : lo ≤ hi := by
  obtain ⟨c, d, -, hspread, hlo, hhi⟩ := h
  exact Nat.le_trans hlo (Nat.le_trans hspread.leadsTo.offset_le hhi)

theorem mono {lo' : Nat} (h : Between source lo more hi) (hlo : lo' ≤ lo) :
    Between source lo' more hi := by
  obtain ⟨c, d, hc, hspread, hle, hhi⟩ := h
  exact ⟨c, d, hc, hspread, Nat.le_trans hlo hle, hhi⟩

/-- The first pair, and the others behind it. -/
theorem cons (h : Between source lo (p :: more) hi) :
    p.InText source ∧ lo ≤ p.span.start ∧ Between source p.span.stop more hi := by
  obtain ⟨c, f, hc, hspread, hlo, hhi⟩ := h
  cases hspread with
  | @cons _ d e _ _ _ _ hd hleast hinner hmore =>
    have hstart := hc.trans hd
    have hpassed := hinner.leadsTo
    have hstop := hstart.trans hpassed
    refine ⟨⟨hstart.isValid, hstop.isValid, hpassed.offset_add_le hleast, hstart.slice_eq hpassed,
      d, e, hstart, hinner, Nat.le_refl _, Nat.le_refl _⟩, ?_, ?_⟩
    · exact Nat.le_trans hlo hd.offset_le
    · exact ⟨e, f, hstop, hmore, Nat.le_refl _, hhi⟩

end Pair.Between

/-! ## Nodes in a text -/

/-- The text is the one that a leaf stands for: a name, the word of a truth value, or digits that
have the value of the integer. -/
def Node.Spells : Node → String → Prop
  | identifier _ name, text => text = name
  | boolean _ value, text => text = if value then "true" else "false"
  | integer _ value, text => text ≠ "" ∧ (∀ x ∈ text.toList, isDigit x = true) ∧
      decimalValue text.toList ≤ maxInteger ∧ value = Int64.ofNat (decimalValue text.toList)
  | _, _ => True

/-- A node has its place in a text, and its children theirs inside it. -/
structure Node.PlacedAt (source : String) (place : NodeId → Option Span) (n : Node) (s : Span) :
    Prop where
  recorded : place n.id = some s
  start_valid : String.Pos.Raw.IsValid source ⟨s.start⟩
  stop_valid : String.Pos.Raw.IsValid source ⟨s.stop⟩
  spells : n.Spells (s.slice source)
  later : ∀ child ∈ n.children, child.id < n.id
  inside : ∃ spans, List.Forall₂ (fun child t => place child.id = some t) n.children spans ∧
    Span.InOrder s.start spans s.stop

/-- A node and all nodes below it have their places. -/
def Node.Placed (source : String) (place : NodeId → Option Span) (n : Node) : Prop :=
  ∀ m, n.Within m → ∃ s, m.PlacedAt source place s

/-- A part has its place, which is not empty. -/
structure Part.Placed (source : String) (place : NodeId → Option Span) (part : Part) : Prop where
  node : part.node.Placed source place
  recorded : place part.node.id = some part.span
  nonempty : part.span.start < part.span.stop

section

variable {source : String} {place place' : NodeId → Option Span} {n : Node} {s : Span}

theorem Node.PlacedAt.mono (hplace : ∀ id s, place id = some s → place' id = some s)
    (h : n.PlacedAt source place s) : n.PlacedAt source place' s where
  recorded := hplace _ _ h.recorded
  start_valid := h.start_valid
  stop_valid := h.stop_valid
  spells := h.spells
  later := h.later
  inside := by
    obtain ⟨spans, hspans, horder⟩ := h.inside
    exact ⟨spans, hspans.imp fun _ _ => hplace _ _, horder⟩

theorem Node.Placed.mono (hplace : ∀ id s, place id = some s → place' id = some s)
    (h : n.Placed source place) : n.Placed source place' := by
  intro m hm
  obtain ⟨s, hs⟩ := h m hm
  exact ⟨s, hs.mono hplace⟩

theorem Part.Placed.mono (hplace : ∀ id s, place id = some s → place' id = some s) {part : Part}
    (h : part.Placed source place) : part.Placed source place' :=
  ⟨h.node.mono hplace, hplace _ _ h.recorded, h.nonempty⟩

/-- A node is placed with all nodes below it if its children are. -/
theorem Node.PlacedAt.placed (h : n.PlacedAt source place s)
    (hchildren : ∀ child ∈ n.children, child.Placed source place) : n.Placed source place := by
  intro m hm
  rcases hm.eq_or_child with rfl | ⟨child, hchild, hwithin⟩
  · exact ⟨s, h⟩
  · exact hchildren child hchild m hwithin

end

end TraceTree

import TraceTree.Proofs.Syntax.Forms
import TraceTree.Proofs.Syntax.Spans

set_option autoImplicit false

/-! # Building from the pairs of a match

From pairs that the grammar makes a tree is built, unless an integer among them is out of range: then
the first such integer, in the order of the text, is what is reported (`Build.Settles`). The tree has
its places in the text (`Part.Made`). An expression is built while its pairs are passed one by one, so
both facts are carried along for what is pending. -/

namespace TraceTree

/-! ## Integers out of range -/

/-- The pair of an integer that is out of range. -/
def Pair.Oversized (p : Pair) : Prop := p.rule = .integer ∧ maxInteger < decimalValue p.text

instance : DecidablePred Pair.Oversized := fun _ => inferInstanceAs (Decidable (_ ∧ _))

/-- The pairs of a list and those inside them, in the order in which they begin. -/
def Pair.within (pairs : List Pair) : List Pair := (Pair.preorderAll 0 pairs).map Prod.snd

/-- The first pair, also inside the pairs of a list, of an integer that is out of range. -/
def firstOversized? (pairs : List Pair) : Option Pair := (Pair.within pairs).find? (·.Oversized)

/-- The failure that reports an integer out of range. -/
def Pair.tooLarge (p : Pair) : ParseError := ⟨.integerTooLarge (String.ofList p.text), p.span⟩

mutual

theorem Pair.preorderFrom_depth (p : Pair) (depth depth' : Nat) :
    (p.preorderFrom depth).map Prod.snd = (p.preorderFrom depth').map Prod.snd := by
  match p with
  | .mk r span text inner =>
    rw [preorderFrom, preorderFrom, List.map_cons, List.map_cons,
      Pair.preorderAll_depth inner (depth + 1) (depth' + 1)]
termination_by sizeOf p

theorem Pair.preorderAll_depth (ps : List Pair) (depth depth' : Nat) :
    (preorderAll depth ps).map Prod.snd = (preorderAll depth' ps).map Prod.snd := by
  match ps with
  | [] => rfl
  | p :: more =>
    rw [preorderAll, preorderAll, List.map_append, List.map_append,
      Pair.preorderFrom_depth p depth depth', Pair.preorderAll_depth more depth depth']
termination_by sizeOf ps

end

theorem Pair.within_cons (p : Pair) (more : List Pair) :
    within (p :: more) = p :: (within p.children ++ within more) := by
  obtain ⟨r, span, text, inner⟩ := p
  rw [within, preorderAll, preorderFrom, List.map_append, List.map_cons,
    preorderAll_depth inner (0 + 1) 0]
  rfl

theorem Pair.within_append (ps qs : List Pair) : within (ps ++ qs) = within ps ++ within qs := by
  induction ps with
  | nil => rfl
  | cons p ps ih => simp only [List.cons_append, within_cons, ih, List.append_assoc]

theorem firstOversized?_eq_none {pairs : List Pair} :
    firstOversized? pairs = none ↔ ∀ t ∈ Pair.within pairs, ¬ t.Oversized := by
  rw [firstOversized?, List.find?_eq_none]
  simp only [decide_eq_true_eq]

theorem firstOversized?_cons (p : Pair) (more : List Pair) :
    firstOversized? (p :: more) =
      if p.Oversized then some p else (firstOversized? p.children).or (firstOversized? more) := by
  rw [firstOversized?, Pair.within_cons, List.find?_cons, List.find?_append]
  by_cases h : p.Oversized <;> simp [h, firstOversized?]

theorem firstOversized?_append (ps qs : List Pair) :
    firstOversized? (ps ++ qs) = (firstOversized? ps).or (firstOversized? qs) := by
  rw [firstOversized?, Pair.within_append, List.find?_append]
  rfl

/-- In a pair that is no integer only its parts can be out of range. -/
theorem firstOversized?_single {p : Pair} (h : p.rule ≠ .integer) :
    firstOversized? [p] = firstOversized? p.children := by
  rw [firstOversized?_cons, if_neg fun hp => h hp.1]
  exact Option.or_none

/-- A token that is no integer does not matter. -/
theorem firstOversized?_token {p : Pair} (h : p.rule ∈ tokenRules) (hparts : p.HasParts)
    (hp : p.rule ≠ .integer) (more : List Pair) :
    firstOversized? (p :: more) = firstOversized? more := by
  have hnil : p.children = [] := List.map_eq_nil_iff.mp (mem_parts_token h hparts)
  rw [firstOversized?_cons, if_neg fun ho => hp ho.1, hnil]
  rfl

/-! ## What building comes to -/

/-- Building fails on the first integer out of range among the pairs. If there is none it succeeds,
with a result and a draft that have a property. -/
def Build.Settles {α : Type} (build : Build α) (draft : Draft) (pairs : List Pair)
    (property : α → Draft → Prop) : Prop :=
  match firstOversized? pairs with
  | some t => build draft = .error t.tooLarge
  | none => ∃ a draft', build draft = .ok (a, draft') ∧ property a draft'

namespace Build

variable {α β : Type} {property : α → Draft → Prop} {draft : Draft} {ps qs : List Pair}

theorem settles_pure {a : α} (h : property a draft) : Settles (pure a) draft [] property :=
  ⟨a, draft, rfl, h⟩

theorem Settles.bind {after : β → Draft → Prop} {build : Build α} {rest : α → Build β}
    (h : build.Settles draft ps property)
    (hrest : ∀ a draft', property a draft' → (rest a).Settles draft' qs after) :
    Settles (build >>= rest) draft (ps ++ qs) after := by
  unfold Settles at h ⊢
  rw [firstOversized?_append]
  cases hfirst : firstOversized? ps with
  | some t =>
    rw [hfirst] at h
    simp only [Option.some_or, Bind.bind, StateT.bind, Except.bind, show build draft = _ from h]
  | none =>
    rw [hfirst] at h
    obtain ⟨a, draft', hbuild, ha⟩ := h
    have hnext := hrest a draft' ha
    unfold Settles at hnext
    simpa only [Option.none_or, Bind.bind, StateT.bind, Except.bind, hbuild] using hnext

/-- What is built of no pairs does not fail. -/
theorem Settles.quietly {after : β → Draft → Prop} {build : Build α} {rest : α → Build β}
    (h : build.Settles draft [] property)
    (hrest : ∀ a draft', property a draft' → (rest a).Settles draft' ps after) :
    Settles (build >>= rest) draft ps after :=
  h.bind hrest

theorem Settles.mono {after : α → Draft → Prop} {build : Build α}
    (h : build.Settles draft ps property) (hafter : ∀ a draft', property a draft' → after a draft') :
    build.Settles draft ps after := by
  unfold Settles at h ⊢
  split
  · next t hfirst =>
    rw [hfirst] at h
    exact h
  · next hfirst =>
    rw [hfirst] at h
    obtain ⟨a, draft', hbuild, ha⟩ := h
    exact ⟨a, draft', hbuild, hafter a draft' ha⟩

/-- What was built has the property. -/
theorem Settles.of_ok {build : Build α} (h : build.Settles draft ps property) {a : α}
    {draft' : Draft} (hok : build draft = .ok (a, draft')) : property a draft' := by
  unfold Settles at h
  split at h
  · cases h.symm.trans hok
  · obtain ⟨a', draft'', hbuild, ha⟩ := h
    obtain ⟨rfl, rfl⟩ := Prod.mk.inj (Except.ok.inj (hbuild.symm.trans hok))
    exact ha

/-- Only the integers out of range among the pairs matter. -/
theorem Settles.congr {build : Build α} (h : build.Settles draft ps property)
    (heq : firstOversized? qs = firstOversized? ps) : build.Settles draft qs property := by
  unfold Settles
  rw [heq]
  exact h

end Build

/-! ## Drafts that grow -/

/-- The span that a draft records for a number, where `first` was its first one. -/
def Draft.place (first : NodeId) (draft : Draft) (id : NodeId) : Option Span :=
  if first ≤ id then draft.spans[id - first]? else none

/-- A draft has made one node for each number since the first. -/
def Draft.Counts (first : NodeId) (draft : Draft) : Prop := draft.next = first + draft.spans.size

/-- The later draft counts on, and records what the earlier one does. -/
structure Draft.Grows (first : NodeId) (draft draft' : Draft) : Prop where
  counts : draft'.Counts first
  place : ∀ id s, draft.place first id = some s → draft'.place first id = some s

section

variable {source : String} {first : NodeId} {draft draft' draft'' : Draft} {lo hi : Nat}

theorem Draft.Counts.grows_refl (h : draft.Counts first) : draft.Grows first draft :=
  ⟨h, fun _ _ hs => hs⟩

theorem Draft.Grows.trans (h : draft.Grows first draft') (h' : draft'.Grows first draft'') :
    draft.Grows first draft'' :=
  ⟨h'.counts, fun id s hs => h'.place id s (h.place id s hs)⟩

theorem Draft.lt_next_of_place (h : draft.Counts first) {id : NodeId} {s : Span}
    (hs : draft.place first id = some s) : id < draft.next := by
  unfold place at hs
  split at hs
  · next hle =>
    have hlt := (Array.getElem?_eq_some_iff.mp hs).1
    rw [h]
    exact (Nat.sub_lt_iff_lt_add' hle).mp hlt
  · cases hs

/-- The draft after one more node was made. -/
def Draft.push (draft : Draft) (span : Span) : Draft := ⟨draft.next + 1, draft.spans.push span⟩

theorem Draft.Counts.place_push (h : draft.Counts first) (span : Span) :
    (draft.push span).place first draft.next = some span := by
  have hnext : draft.next - first = draft.spans.size := by
    rw [h]
    exact Nat.add_sub_cancel_left ..
  unfold place push
  rw [if_pos (h ▸ Nat.le_add_right ..), hnext, Array.getElem?_push_size]

theorem Draft.Counts.grows_push (h : draft.Counts first) (span : Span) :
    draft.Grows first (draft.push span) := by
  refine ⟨?_, fun id s hs => ?_⟩
  · show draft.next + 1 = first + (draft.spans.push span).size
    rw [Array.size_push, h, Nat.add_assoc]
  · unfold place at hs ⊢
    split at hs
    · next hle =>
      have hlt := (Array.getElem?_eq_some_iff.mp hs).1
      rw [if_pos hle, ← hs]
      exact Array.getElem?_push_lt hlt ▸ (Array.getElem?_eq_getElem hlt).symm
    · cases hs

/-! ## Parts that are made -/

/-- What has been made of a draft: a part with its place, between two offsets. -/
structure Part.Made (source : String) (first : NodeId) (draft : Draft) (lo hi : Nat) (part : Part)
    (draft' : Draft) : Prop where
  grows : draft.Grows first draft'
  placed : part.Placed source (draft'.place first)
  lo_le : lo ≤ part.span.start
  le_hi : part.span.stop ≤ hi

/-- Parts with their places have been made, one after the other between two offsets. -/
structure PartsMade (source : String) (first : NodeId) (draft : Draft) (lo hi : Nat)
    (parts : List Part) (draft' : Draft) : Prop where
  grows : draft.Grows first draft'
  placed : ∀ part ∈ parts, part.Placed source (draft'.place first)
  order : Span.InOrder lo (parts.map (·.span)) hi

theorem Part.Placed.grow {part : Part} (h : part.Placed source (draft.place first))
    (hgrows : draft.Grows first draft') : part.Placed source (draft'.place first) :=
  h.mono hgrows.place

theorem Part.Placed.placedAt {place : NodeId → Option Span} {part : Part}
    (h : part.Placed source place) : part.node.PlacedAt source place part.span := by
  obtain ⟨s, hs⟩ := h.node part.node .self
  obtain rfl := Option.some.inj (hs.recorded.symm.trans h.recorded)
  exact hs

/-- A part that is there is made of nothing. -/
theorem Part.Placed.made {part : Part} (h : part.Placed source (draft.place first))
    (hdraft : draft.Counts first) (hlo : lo ≤ part.span.start) (hhi : part.span.stop ≤ hi) :
    part.Made source first draft lo hi draft :=
  ⟨hdraft.grows_refl, h, hlo, hhi⟩

/-- What was made of a later draft. -/
theorem Part.Made.after {part : Part} (h : part.Made source first draft' lo hi draft'')
    (hgrows : draft.Grows first draft') : part.Made source first draft lo hi draft'' :=
  ⟨hgrows.trans h.grows, h.placed, h.lo_le, h.le_hi⟩

/-- What was made between closer offsets. -/
theorem Part.Made.widen {part : Part} {lo' hi' : Nat}
    (h : part.Made source first draft lo hi draft') (hlo : lo' ≤ lo) (hhi : hi ≤ hi') :
    part.Made source first draft lo' hi' draft' :=
  ⟨h.grows, h.placed, Nat.le_trans hlo h.lo_le, Nat.le_trans h.le_hi hhi⟩

theorem partsMade_nil (hdraft : draft.Counts first) (h : lo ≤ hi) :
    PartsMade source first draft lo hi [] draft :=
  ⟨hdraft.grows_refl, fun _ h => absurd h List.not_mem_nil, h⟩

theorem Part.Made.single {part : Part} (h : part.Made source first draft lo hi draft') :
    PartsMade source first draft lo hi [part] draft' :=
  ⟨h.grows, List.forall_mem_singleton.mpr h.placed, h.lo_le, h.placed.nonempty, h.le_hi⟩

theorem PartsMade.widen {parts : List Part} {lo' : Nat}
    (h : PartsMade source first draft lo hi parts draft') (hlo : lo' ≤ lo) :
    PartsMade source first draft lo' hi parts draft' :=
  ⟨h.grows, h.placed, h.order.mono hlo⟩

theorem PartsMade.append {parts more : List Part} {mid : Nat}
    (h : PartsMade source first draft lo mid parts draft')
    (hmore : PartsMade source first draft' mid hi more draft'') :
    PartsMade source first draft lo hi (parts ++ more) draft'' := by
  refine ⟨h.grows.trans hmore.grows, ?_, ?_⟩
  · exact List.forall_mem_append.mpr
      ⟨fun part hpart => (h.placed part hpart).grow hmore.grows, hmore.placed⟩
  · rw [List.map_append]
    exact h.order.append hmore.order

/-- One more part before others. -/
theorem Part.Made.cons {part : Part} {parts : List Part} {mid : Nat}
    (h : part.Made source first draft lo mid draft')
    (hparts : PartsMade source first draft' mid hi parts draft'') :
    PartsMade source first draft lo hi (part :: parts) draft'' :=
  h.single.append hparts

/-- A node is placed when it is made, if its children are parts with their places inside it. -/
theorem PartsMade.placedAt_push {n : Node} {span : Span} {parts : List Part}
    (h : PartsMade source first draft span.start span.stop parts draft')
    (hid : n.id = draft'.next) (hchildren : n.children = nodesOf parts)
    (hstart : String.Pos.Raw.IsValid source ⟨span.start⟩)
    (hstop : String.Pos.Raw.IsValid source ⟨span.stop⟩) (hspells : n.Spells (span.slice source)) :
    n.PlacedAt source ((draft'.push span).place first) span ∧
      n.Placed source ((draft'.push span).place first) := by
  have hgrows := h.grows.counts.grows_push span
  have hat : n.PlacedAt source ((draft'.push span).place first) span := {
    recorded := by rw [hid]; exact h.grows.counts.place_push span
    start_valid := hstart
    stop_valid := hstop
    spells := hspells
    later := by
      rw [hchildren, hid]
      intro child hchild
      obtain ⟨part, hpart, rfl⟩ := List.mem_map.mp hchild
      exact Draft.lt_next_of_place h.grows.counts (h.placed part hpart).recorded
    inside := by
      refine ⟨_, ?_, h.order⟩
      rw [hchildren, nodesOf, List.forall₂_map_left_iff, List.forall₂_map_right_iff,
        List.forall₂_same]
      exact fun part hpart => hgrows.place _ _ (h.placed part hpart).recorded }
  refine ⟨hat, hat.placed ?_⟩
  rw [hchildren]
  intro child hchild
  obtain ⟨part, hpart, rfl⟩ := List.mem_map.mp hchild
  exact (h.placed part hpart).node.mono hgrows.place

/-- Making a node around parts that have been made. -/
theorem PartsMade.settles_alloc {make : NodeId → Node} {span : Span} {parts : List Part}
    (h : PartsMade source first draft span.start span.stop parts draft')
    (hid : ∀ id, (make id).id = id) (hchildren : ∀ id, (make id).children = nodesOf parts)
    (hstart : String.Pos.Raw.IsValid source ⟨span.start⟩)
    (hstop : String.Pos.Raw.IsValid source ⟨span.stop⟩) (hne : span.start < span.stop)
    (hspells : ∀ id, (make id).Spells (span.slice source)) :
    (Build.alloc span make).Settles draft' []
      (Part.Made source first draft span.start span.stop) := by
  obtain ⟨hat, hplaced⟩ := h.placedAt_push (hid _) (hchildren _) hstart hstop (hspells _)
  exact ⟨⟨make draft'.next, span⟩, draft'.push span, rfl,
    h.grows.trans (h.grows.counts.grows_push span), ⟨hplaced, hat.recorded, hne⟩, Nat.le_refl _,
    Nat.le_refl _⟩

/-! ## Formulas -/

/-- The operands of a formula have their places, one after the other between two offsets. -/
def Formula.Lies (source : String) (place : NodeId → Option Span) :
    Nat → Formula Part → Nat → Prop
  | lo, .operand part, hi => part.Placed source place ∧ lo ≤ part.span.start ∧ part.span.stop ≤ hi
  | lo, .binary _ left right, hi =>
    ∃ mid, Lies source place lo left mid ∧ Lies source place mid right hi

/-- The operators before an operand begin one before the other, behind an offset; the operand begins
behind them all. -/
def PrefixesLie (source : String) (lo : Nat) : List (PrefixOp × Nat) → Nat → Prop
  | [], hi => lo ≤ hi
  | (_, start) :: outer, hi =>
    start ≤ hi ∧ String.Pos.Raw.IsValid source ⟨start⟩ ∧ PrefixesLie source lo outer start

/-- What is pending lies between two offsets: the finished operands, then the prefix operators, then
the operand begun. -/
def Pending.Lies (source : String) (place : NodeId → Option Span) (lo : Nat) (pending : Pending)
    (hi : Nat) : Prop :=
  ∃ base,
    (match pending.left with
      | none => lo ≤ base
      | some (formula, _) => formula.Lies source place lo base) ∧
    (match pending.operand with
      | none => PrefixesLie source base pending.prefixes hi
      | some part => part.Placed source place ∧
        PrefixesLie source base pending.prefixes part.span.start ∧ part.span.stop ≤ hi)

theorem Formula.Lies.grow {f : Formula Part} (h : f.Lies source (draft.place first) lo hi)
    (hgrows : draft.Grows first draft') : f.Lies source (draft'.place first) lo hi := by
  induction f generalizing lo hi with
  | operand part => exact ⟨h.1.grow hgrows, h.2⟩
  | binary op left right ihl ihr =>
    obtain ⟨mid, hleft, hright⟩ := h
    exact ⟨mid, ihl hleft, ihr hright⟩

theorem Formula.Lies.extend {place : NodeId → Option Span} {f : Formula Part} {mid : Nat}
    (h : f.Lies source place lo mid) (op : InfixOp) {part : Part}
    (hpart : (Formula.operand part).Lies source place mid hi) :
    (f.extend op part).Lies source place lo hi := by
  induction f generalizing lo with
  | operand b => exact ⟨mid, h, hpart⟩
  | binary o left right _ ihr =>
    rw [Formula.extend]
    split
    · obtain ⟨m, hleft, hright⟩ := h
      exact ⟨m, hleft, ihr hright⟩
    · exact ⟨mid, h, hpart⟩

theorem PrefixesLie.mono {ops : List (PrefixOp × Nat)} {hi' : Nat} (h : PrefixesLie source lo ops hi)
    (hhi : hi ≤ hi') : PrefixesLie source lo ops hi' := by
  match ops with
  | [] => exact Nat.le_trans h hhi
  | (_, start) :: outer => exact ⟨Nat.le_trans h.1 hhi, h.2⟩

theorem Pending.Lies.grow {pending : Pending} (h : pending.Lies source (draft.place first) lo hi)
    (hgrows : draft.Grows first draft') : pending.Lies source (draft'.place first) lo hi := by
  obtain ⟨left, prefixes, operand⟩ := pending
  obtain ⟨base, hleft, hoperand⟩ := h
  refine ⟨base, ?_, ?_⟩
  · match left with
    | none => exact hleft
    | some (f, _) => exact Formula.Lies.grow hleft hgrows
  · match operand with
    | none => exact hoperand
    | some part => exact ⟨hoperand.1.grow hgrows, hoperand.2⟩

/-- Another operator before the operand. -/
theorem Pending.Lies.withPrefix {place : NodeId → Option Span} {pending : Pending} {mid start : Nat}
    (h : pending.Lies source place lo mid) (hoperand : pending.operand = none) (op : PrefixOp)
    (hlo : mid ≤ start) (hhi : start ≤ hi) (hvalid : String.Pos.Raw.IsValid source ⟨start⟩) :
    Pending.Lies source place lo { pending with prefixes := (op, start) :: pending.prefixes } hi := by
  obtain ⟨left, prefixes, operand⟩ := pending
  obtain rfl := hoperand
  obtain ⟨base, hleft, hprefixes⟩ := h
  exact ⟨base, hleft, hhi, hvalid, PrefixesLie.mono hprefixes hlo⟩

/-- The operand begins. -/
theorem Pending.Lies.withOperand {place : NodeId → Option Span} {pending : Pending} {mid : Nat}
    {part : Part} (h : pending.Lies source place lo mid) (hoperand : pending.operand = none)
    (hpart : part.Placed source place) (hlo : mid ≤ part.span.start) (hhi : part.span.stop ≤ hi) :
    Pending.Lies source place lo { pending with operand := some part } hi := by
  obtain ⟨left, prefixes, operand⟩ := pending
  obtain rfl := hoperand
  obtain ⟨base, hleft, hprefixes⟩ := h
  exact ⟨base, hleft, hpart, PrefixesLie.mono hprefixes hlo, hhi⟩

theorem Pending.Lies.operand {place : NodeId → Option Span} {pending : Pending} {part : Part}
    (h : pending.Lies source place lo hi) (hoperand : pending.operand = some part) :
    part.Placed source place ∧ part.span.stop ≤ hi := by
  obtain ⟨left, prefixes, _⟩ := pending
  obtain rfl := hoperand
  obtain ⟨base, -, hpart, -, hhi⟩ := h
  exact ⟨hpart, hhi⟩

/-- The operand begun becomes part of a longer one. -/
theorem Pending.Lies.withCall {place : NodeId → Option Span} {pending : Pending} {mid : Nat}
    {operand part : Part} (h : pending.Lies source place lo mid)
    (hoperand : pending.operand = some operand) (hpart : part.Placed source place)
    (hlo : operand.span.start ≤ part.span.start) (hhi : part.span.stop ≤ hi) :
    Pending.Lies source place lo { pending with operand := some part } hi := by
  obtain ⟨left, prefixes, _⟩ := pending
  obtain rfl := hoperand
  obtain ⟨base, hleft, -, hprefixes, -⟩ := h
  exact ⟨base, hleft, hpart, hprefixes.mono hlo, hhi⟩

/-- An operator after the operand. -/
theorem Formula.Lies.pending {place : NodeId → Option Span} {f : Formula Part} {mid : Nat}
    (h : f.Lies source place lo mid) (op : InfixOp) (hhi : mid ≤ hi) :
    Pending.Lies source place lo ⟨some (f, op), [], none⟩ hi :=
  ⟨mid, h, hhi⟩

theorem settles_applyPrefixes (hdraft : draft.Counts first) {ops : List (PrefixOp × Nat)}
    {part : Part} (hops : PrefixesLie source lo ops part.span.start)
    (hpart : part.Placed source (draft.place first)) (hhi : part.span.stop ≤ hi) :
    (applyPrefixes ops part).Settles draft [] (Part.Made source first draft lo hi) := by
  induction ops generalizing draft part with
  | nil => exact Build.settles_pure ⟨hdraft.grows_refl, hpart, hops, hhi⟩
  | cons op outer ih =>
    obtain ⟨op, start⟩ := op
    obtain ⟨hle, hvalid, houter⟩ := hops
    have hone : PartsMade source first draft start part.span.stop [part] draft :=
      (hpart.made hdraft hle (Nat.le_refl _)).single
    have hwhole : (Build.alloc ⟨start, part.span.stop⟩ (.prefixExpression · op part.node)).Settles
        draft [] (Part.Made source first draft start part.span.stop) :=
      hone.settles_alloc (fun _ => rfl) (fun _ => rfl) hvalid hpart.placedAt.stop_valid
        (Nat.lt_of_le_of_lt hle hpart.nonempty) fun _ => trivial
    refine hwhole.quietly fun whole draft' hmade => ?_
    have hrest := ih hmade.grows.counts (houter.mono hmade.lo_le) hmade.placed
      (Nat.le_trans hmade.le_hi hhi)
    exact hrest.mono fun _ _ h => h.after hmade.grows

theorem Formula.settles_build (hdraft : draft.Counts first) {f : Formula Part}
    (hf : f.Lies source (draft.place first) lo hi) :
    f.build.Settles draft [] (Part.Made source first draft lo hi) := by
  induction f generalizing draft lo hi with
  | operand part => exact Build.settles_pure (hf.1.made hdraft hf.2.1 hf.2.2)
  | binary op left right ihl ihr =>
    obtain ⟨mid, hleft, hright⟩ := hf
    refine (ihl hdraft hleft).quietly fun l draft₁ hl => ?_
    refine (ihr hl.grows.counts (hright.grow hl.grows)).quietly fun r draft₂ hr => ?_
    have hl₂ := hl.placed.grow hr.grows
    have hbefore : l.span.stop ≤ r.span.start := Nat.le_trans hl.le_hi hr.lo_le
    -- the node spans its operands, which may be less than the room for them
    have hboth : PartsMade source first draft l.span.start r.span.stop [l, r] draft₂ := by
      have hl' : l.Made source first draft l.span.start l.span.stop draft₁ :=
        ⟨hl.grows, hl.placed, Nat.le_refl _, Nat.le_refl _⟩
      have hr' : r.Made source first draft₁ l.span.stop r.span.stop draft₂ :=
        ⟨hr.grows, hr.placed, hbefore, Nat.le_refl _⟩
      exact hl'.cons hr'.single
    have hne : l.span.start < r.span.stop := by
      have hlne := hl.placed.nonempty
      have hrne := hr.placed.nonempty
      omega
    have hwhole : (Build.alloc ⟨l.span.start, r.span.stop⟩
        (.infixExpression · op l.node r.node)).Settles draft₂ []
        (Part.Made source first draft l.span.start r.span.stop) :=
      hboth.settles_alloc (fun _ => rfl) (fun _ => rfl) hl₂.placedAt.start_valid
        hr.placed.placedAt.stop_valid hne fun _ => trivial
    exact hwhole.mono fun _ _ h => h.widen hl.lo_le hr.le_hi

/-- The formula up to the operand begun lies where that does. -/
theorem Pending.Lies.settles_finish (hdraft : draft.Counts first) {pending : Pending} {part : Part}
    (h : pending.Lies source (draft.place first) lo hi) (hoperand : pending.operand = some part) :
    (pending.finish part).Settles draft [] fun f draft' =>
      draft.Grows first draft' ∧ f.Lies source (draft'.place first) lo hi := by
  obtain ⟨left, prefixes, operand⟩ := pending
  obtain rfl := hoperand
  obtain ⟨base, hleft, hpart, hprefixes, hhi⟩ := h
  refine (settles_applyPrefixes hdraft hprefixes hpart hhi).quietly fun whole draft' hw => ?_
  match left with
  | none =>
    have hbase : lo ≤ base := hleft
    exact Build.settles_pure ⟨hw.grows, hw.placed, Nat.le_trans hbase hw.lo_le, hw.le_hi⟩
  | some (f, op) =>
    have hf : f.Lies source (draft'.place first) lo base := Formula.Lies.grow hleft hw.grows
    exact Build.settles_pure ⟨hw.grows, hf.extend op ⟨hw.placed, hw.lo_le, hw.le_hi⟩⟩

theorem Pending.lies_empty {place : NodeId → Option Span} :
    Pending.empty.Lies source place lo lo :=
  ⟨lo, Nat.le_refl _, Nat.le_refl _⟩

end

end TraceTree

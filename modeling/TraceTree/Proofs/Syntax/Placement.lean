import TraceTree.Proofs.Syntax.Settling

set_option autoImplicit false

/-! # Every node has its place

The spans recorded for a tree nest like the nodes do: the root covers the whole text, the spans of
children lie in that of their parent, one after the other, and a leaf covers just its own text
(`placed_of_parseAt`). That no two nodes have the same number follows: the children of a node have
smaller numbers than the node, and nodes below different children have spans that do not meet. -/

namespace TraceTree

/-! ## The nodes of a tree -/

namespace Node

/-- A node and all nodes below it, a node before its children. -/
def nodes (n : Node) : List Node := n.preorder.map Prod.snd

mutual

theorem preorderFrom_depth (n : Node) (depth depth' : Nat) :
    (n.preorderFrom depth).map Prod.snd = (n.preorderFrom depth').map Prod.snd := by
  cases n with
  | identifier | boolean | integer => rfl
  | program _ ms | block _ ms =>
    simp only [preorderFrom, List.map_cons, preorderAll_depth ms (depth + 1) (depth' + 1)]
  | returnStatement _ m | expressionStatement _ m | prefixExpression _ _ m =>
    simp only [preorderFrom, List.map_cons, preorderFrom_depth m (depth + 1) (depth' + 1)]
  | letStatement _ l r | infixExpression _ _ l r =>
    simp only [preorderFrom, List.map_cons, List.map_append,
      preorderFrom_depth l (depth + 1) (depth' + 1), preorderFrom_depth r (depth + 1) (depth' + 1)]
  | functionLiteral _ ms m | call _ m ms =>
    simp only [preorderFrom, List.map_cons, List.map_append,
      preorderFrom_depth m (depth + 1) (depth' + 1), preorderAll_depth ms (depth + 1) (depth' + 1)]
  | ifExpression _ c t e =>
    cases e with
    | none =>
      simp only [preorderFrom, List.map_cons, List.map_append,
        preorderFrom_depth c (depth + 1) (depth' + 1), preorderFrom_depth t (depth + 1) (depth' + 1)]
    | some e =>
      simp only [preorderFrom, List.map_cons, List.map_append,
        preorderFrom_depth c (depth + 1) (depth' + 1), preorderFrom_depth t (depth + 1) (depth' + 1),
        preorderFrom_depth e (depth + 1) (depth' + 1)]
termination_by sizeOf n

theorem preorderAll_depth (ns : List Node) (depth depth' : Nat) :
    (preorderAll depth ns).map Prod.snd = (preorderAll depth' ns).map Prod.snd := by
  match ns with
  | [] => rfl
  | n :: more =>
    rw [preorderAll, preorderAll, List.map_append, List.map_append,
      preorderFrom_depth n depth depth', preorderAll_depth more depth depth']
termination_by sizeOf ns

end

theorem snd_preorderFrom (n : Node) (depth : Nat) :
    (n.preorderFrom depth).map Prod.snd = n.nodes :=
  n.preorderFrom_depth depth 0

theorem snd_preorderAll (ns : List Node) (depth : Nat) :
    (preorderAll depth ns).map Prod.snd = ns.flatMap nodes := by
  induction ns with
  | nil => rfl
  | cons n ns ih => rw [preorderAll, List.map_append, snd_preorderFrom, ih, List.flatMap_cons]

/-- The nodes of a tree are its root and the nodes of its children. -/
theorem nodes_eq (n : Node) : n.nodes = n :: n.children.flatMap nodes := by
  show (n.preorderFrom 0).map Prod.snd = _
  cases n with
  | ifExpression id condition consequence alternative =>
    cases alternative <;> simp [preorderFrom, snd_preorderFrom, children]
  | _ => simp [preorderFrom, snd_preorderFrom, snd_preorderAll, children]

end Node

/-! ## Spans inside one another -/

section

variable {source : String} {place : NodeId → Option Span} {n m : Node} {s : Span}

theorem Node.Placed.child (h : n.Placed source place) {child : Node} (hchild : child ∈ n.children) :
    child.Placed source place :=
  fun _ hm => h _ ((Node.Within.self.child hchild).trans hm)

/-- The spans recorded for the children are in order. -/
theorem Node.PlacedAt.children_spans (h : n.PlacedAt source place s) :
    ∃ spans : List Span, n.children.map (place ·.id) = spans.map some ∧
      Span.InOrder s.start spans s.stop := by
  obtain ⟨spans, hspans, horder⟩ := h.inside
  refine ⟨spans, ?_, horder⟩
  rwa [← List.forall₂_eq_eq_eq, List.forall₂_map_left_iff, List.forall₂_map_right_iff]

theorem Node.PlacedAt.child_span (h : n.PlacedAt source place s) {child : Node}
    (hchild : child ∈ n.children) :
    ∃ t, place child.id = some t ∧ s.start ≤ t.start ∧ t.start < t.stop ∧ t.stop ≤ s.stop := by
  obtain ⟨spans, hspans, horder⟩ := h.children_spans
  have hmem : place child.id ∈ spans.map some := hspans ▸ List.mem_map_of_mem hchild
  obtain ⟨t, ht, hplace⟩ := List.mem_map.mp hmem
  exact ⟨t, hplace.symm, horder.mem ht⟩

/-- Children have smaller numbers, so what is passed on from children to parents holds of all nodes
that are placed. -/
theorem Node.Placed.induct {motive : Node → Prop} (h : n.Placed source place)
    (step : ∀ n : Node, n.Placed source place → (∀ child ∈ n.children, motive child) → motive n) :
    motive n := by
  have hbelow : ∀ bound, ∀ n : Node, n.id < bound → n.Placed source place → motive n := by
    intro bound
    induction bound with
    | zero => exact fun _ hlt => absurd hlt (Nat.not_lt_zero _)
    | succ bound ih =>
      intro n hlt hn
      refine step n hn fun child hchild => ?_
      obtain ⟨s, hs⟩ := hn n .self
      have hsmaller := Nat.lt_of_lt_of_le (hs.later child hchild) (Nat.le_of_lt_succ hlt)
      exact ih child hsmaller (hn.child hchild)
  exact hbelow (n.id + 1) n (Nat.lt_succ_self _) h

theorem Node.Placed.within_of_mem (h : n.Placed source place) : ∀ m ∈ n.nodes, n.Within m := by
  refine h.induct (motive := fun n => ∀ m ∈ n.nodes, n.Within m) fun n _ ih m hm => ?_
  rw [Node.nodes_eq] at hm
  rcases List.mem_cons.mp hm with rfl | hm
  · exact .self
  · obtain ⟨child, hchild, hm⟩ := List.mem_flatMap.mp hm
    exact (Node.Within.self.child hchild).trans (ih child hchild m hm)

/-- The nodes of a tree have numbers that are not above that of its root. -/
theorem Node.Placed.id_le (h : n.Placed source place) : ∀ m ∈ n.nodes, m.id ≤ n.id := by
  refine h.induct (motive := fun n => ∀ m ∈ n.nodes, m.id ≤ n.id) fun n hn ih m hm => ?_
  rw [Node.nodes_eq] at hm
  rcases List.mem_cons.mp hm with rfl | hm
  · exact Nat.le_refl _
  · obtain ⟨child, hchild, hm⟩ := List.mem_flatMap.mp hm
    obtain ⟨s, hs⟩ := hn n .self
    exact Nat.le_trans (ih child hchild m hm) (Nat.le_of_lt (hs.later child hchild))

/-- The nodes of a tree have spans inside that of its root, and none is empty if that is not. -/
theorem Node.Placed.span_inside (h : n.Placed source place) : ∀ s, place n.id = some s →
    s.start < s.stop → ∀ m ∈ n.nodes, ∃ t, place m.id = some t ∧ s.start ≤ t.start ∧
      t.start < t.stop ∧ t.stop ≤ s.stop := by
  refine h.induct (motive := fun n => ∀ s, place n.id = some s → s.start < s.stop → ∀ m ∈ n.nodes,
    ∃ t, place m.id = some t ∧ s.start ≤ t.start ∧ t.start < t.stop ∧ t.stop ≤ s.stop)
    fun n hn ih s hs hne m hm => ?_
  rw [Node.nodes_eq] at hm
  rcases List.mem_cons.mp hm with rfl | hm
  · exact ⟨s, hs, Nat.le_refl _, hne, Nat.le_refl _⟩
  · obtain ⟨child, hchild, hm⟩ := List.mem_flatMap.mp hm
    obtain ⟨s', hat⟩ := hn n .self
    obtain rfl := Option.some.inj (hs.symm.trans hat.recorded)
    obtain ⟨t, hplace, hlo, htne, hhi⟩ := hat.child_span hchild
    obtain ⟨u, hu, hstart, hune, hstop⟩ := ih child hchild t hplace htne m hm
    exact ⟨u, hu, Nat.le_trans hlo hstart, hune, Nat.le_trans hstop hhi⟩

/-- **No two nodes have the same number.** -/
theorem Node.Placed.nodup (h : n.Placed source place) : (n.nodes.map (·.id)).Nodup := by
  refine h.induct (motive := fun n => (n.nodes.map (·.id)).Nodup) fun n hn ih => ?_
  obtain ⟨s, hs⟩ := hn n .self
  rw [Node.nodes_eq, List.map_cons, List.map_flatMap, List.nodup_cons, List.nodup_flatMap]
  refine ⟨fun hmem => ?_, ih, ?_⟩
  · -- the nodes below have smaller numbers than the node itself
    obtain ⟨child, hchild, hmem⟩ := List.mem_flatMap.mp hmem
    obtain ⟨m, hm, hid⟩ := List.mem_map.mp hmem
    have hle := (hn.child hchild).id_le m hm
    rw [hid] at hle
    exact Nat.not_lt.mpr hle (hs.later child hchild)
  · -- a node below two children would have its span in both of theirs
    obtain ⟨spans, hspans, horder⟩ := hs.children_spans
    have hpairwise : n.children.Pairwise fun c d => ∀ s t, place c.id = some s →
        place d.id = some t → s.stop ≤ t.start := by
      have hsome : (spans.map some).Pairwise fun a b => ∀ s t, a = some s → b = some t →
          s.stop ≤ t.start := by
        rw [List.pairwise_map]
        refine horder.pairwise.imp fun hst s t hs ht => ?_
        rw [← Option.some.inj hs, ← Option.some.inj ht]
        exact hst.1
      rwa [← hspans, List.pairwise_map] at hsome
    refine hpairwise.imp_of_mem fun {c d} hc hd hcd => ?_
    obtain ⟨s, hplacec, -, hsne, -⟩ := hs.child_span hc
    obtain ⟨t, hplaced, -, htne, -⟩ := hs.child_span hd
    intro id hidc hidd
    obtain ⟨m, hm, rfl⟩ := List.mem_map.mp hidc
    obtain ⟨k, hk, hid⟩ := List.mem_map.mp hidd
    obtain ⟨u, hu, -, hune, hustop⟩ := (hn.child hc).span_inside s hplacec hsne m hm
    obtain ⟨v, hv, hvstart, -, -⟩ := (hn.child hd).span_inside t hplaced htne k hk
    have hbefore := hcd s t hplacec hplaced
    obtain rfl : u = v := Option.some.inj (hu.symm.trans (hid ▸ hv))
    omega

end

/-! ## Reading -/

/-- A tree that was read has its places in a text: its nodes have different numbers, the root covers
the whole text, and every node has its place there with its children inside it. -/
structure Parsed.Placed (source : String) (parsed : Parsed) : Prop where
  distinct : (parsed.root.nodes.map (·.id)).Nodup
  whole : parsed.span? parsed.root.id = some ⟨0, source.utf8ByteSize⟩
  placed : ∀ n ∈ parsed.root.nodes, ∃ s, n.PlacedAt source parsed.span? s ∧ s.start ≤ s.stop ∧
    s.stop ≤ source.utf8ByteSize

/-- **What is read has its places in the text.** -/
theorem placed_of_parseAt {first : NodeId} {source : String} {level : Level} {parsed : Parsed}
    (h : parseAt first source level = .ok parsed) : parsed.Placed source := by
  obtain ⟨p, next, a, hmatched, root, draft, hbuild, rfl⟩ := matched_of_parseAt h
  obtain ⟨q, hq, hrule, hspan, hsound⟩ := Level.sound_of_recognise hmatched
  obtain rfl := (List.cons.inj hq).1
  have hcounts : Draft.Counts first ⟨first, #[]⟩ := rfl
  obtain ⟨hat, hplaced⟩ := (Level.settles_build hsound hrule hspan hcounts).of_ok hbuild
  refine ⟨hplaced.nodup, hat.recorded, fun n hn => ?_⟩
  obtain ⟨s, hs⟩ := hplaced n (hplaced.within_of_mem n hn)
  obtain ⟨spans, -, horder⟩ := hs.inside
  exact ⟨s, hs, horder.le, hs.stop_valid.le_utf8ByteSize⟩

/-- A condition with a callee in parentheses, between comments with characters of several bytes. -/
def guardedCall : String := "// ä\nif ((f)(x, -1)) { true } // ü"

theorem text_guardedCall :
    (parseAt 3 guardedCall .program).toOption.map (·.root.text) =
      some "if f(x, (-1)) { true; };" := by
  cbv

theorem placed_of_parseAt_guardedCall :
    ∃ parsed, parseAt 3 guardedCall .program = .ok parsed ∧
      parsed.root.text = "if f(x, (-1)) { true; };" ∧ parsed.Placed guardedCall := by
  have htext := text_guardedCall
  cases hparsed : parseAt 3 guardedCall .program with
  | error e =>
    rw [hparsed] at htext
    cases htext
  | ok parsed =>
    rw [hparsed] at htext
    exact ⟨parsed, rfl, Option.some.inj htext, placed_of_parseAt hparsed⟩

end TraceTree

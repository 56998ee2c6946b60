import TraceTree.Proofs.Eval.Identity
import TraceTree.Proofs.Syntax.Reading

set_option autoImplicit false

/-! # The numbers of the nodes that are read

Reading a source text makes its nodes one after the other and gives each the next number. So there
is a list of all nodes made so far in which every node stands at the position of its number. Reading
adds to this list (`numbered_of_parseAt`), and no two nodes have the same number, those of earlier
texts included. -/

namespace TraceTree

/-- A node and all nodes below it stand in a list at their numbers. -/
def Node.Numbered (nodes : List Node) (n : Node) : Prop := n.Known (fun id => nodes[id]?)

/-- A part whose node is numbered. -/
def Part.Numbered (nodes : List Node) (part : Part) : Prop := part.node.Numbered nodes

/-- The nodes that a draft has made, with those of earlier drafts; it started at number `first`. -/
structure Draft.Numbers (first : NodeId) (nodes : List Node) (draft : Draft) : Prop where
  next_eq : draft.next = nodes.length
  next_eq_add : draft.next = first + draft.spans.size

/-- Building adds to the nodes that were made, and what it makes of them has a property. -/
def Build.Makes {α : Type} (first : NodeId) (nodes : List Node) (build : Build α)
    (property : List Node → α → Prop) : Prop :=
  ∀ draft, draft.Numbers first nodes → ∀ a draft', build draft = .ok (a, draft') →
    ∃ nodes', nodes <+: nodes' ∧ draft'.Numbers first nodes' ∧ property nodes' a

/-- All operands of a formula are numbered. -/
def Formula.Numbered (nodes : List Node) (f : Formula Part) : Prop :=
  ∀ part, .inl part ∈ f.inOrder → part.Numbered nodes

/-- All parts of what is pending are numbered. -/
structure Pending.Numbered (nodes : List Node) (pending : Pending) : Prop where
  left : ∀ f op, pending.left = some (f, op) → f.Numbered nodes
  operand : ∀ part, pending.operand = some part → part.Numbered nodes

section

variable {first : NodeId} {nodes nodes' : List Node}

theorem Node.Numbered.mono (h : nodes <+: nodes') {n : Node} (hn : n.Numbered nodes) :
    n.Numbered nodes' := by
  intro m hm
  obtain ⟨more, rfl⟩ := h
  have hget : nodes[m.id]? = some m := hn m hm
  show (nodes ++ more)[m.id]? = some m
  rw [List.getElem?_append_left (List.getElem?_eq_some_iff.mp hget).1]
  exact hget

theorem numbered_pair {n m : Node} (hn : n.Numbered nodes) (hm : m.Numbered nodes) :
    ∀ part ∈ [n, m], part.Numbered nodes :=
  List.forall_mem_cons.mpr ⟨hn, List.forall_mem_singleton.mpr hm⟩

theorem Formula.Numbered.mono (h : nodes <+: nodes') {f : Formula Part} (hf : f.Numbered nodes) :
    f.Numbered nodes' :=
  fun part hpart => (hf part hpart).mono h

theorem Formula.Numbered.extend {f : Formula Part} (hf : f.Numbered nodes) (op : InfixOp)
    {part : Part} (hpart : part.Numbered nodes) : (f.extend op part).Numbered nodes :=
  f.forall_extend hf op hpart

theorem Pending.Numbered.mono (h : nodes <+: nodes') {pending : Pending}
    (hpending : pending.Numbered nodes) : pending.Numbered nodes' :=
  ⟨fun f op hleft => (hpending.left f op hleft).mono h,
    fun part hpart => Node.Numbered.mono h (hpending.operand part hpart)⟩

theorem Pending.Numbered.withPrefixes {pending : Pending} (hpending : pending.Numbered nodes)
    (prefixes : List (PrefixOp × Nat)) : Pending.Numbered nodes { pending with prefixes } :=
  ⟨hpending.left, hpending.operand⟩

theorem Pending.Numbered.withOperand {pending : Pending} (hpending : pending.Numbered nodes)
    {part : Part} (hpart : part.Numbered nodes) :
    Pending.Numbered nodes { pending with operand := some part } := by
  refine ⟨hpending.left, fun p hp => ?_⟩
  rw [← Option.some.inj hp]
  exact hpart

theorem Pending.numbered_left {f : Formula Part} (hf : f.Numbered nodes) (op : InfixOp) :
    Pending.Numbered nodes ⟨some (f, op), [], none⟩ := by
  refine ⟨fun f' op' hleft => ?_, fun _ h => (by cases h)⟩
  obtain ⟨rfl, _⟩ := Prod.mk.inj (Option.some.inj hleft)
  exact hf

theorem Pending.numbered_empty : Pending.empty.Numbered nodes :=
  ⟨fun _ _ h => (by cases h), fun _ h => (by cases h)⟩

/-- A node made of numbered children gets the next number. -/
theorem Node.numbered_concat {n : Node} (hid : n.id = nodes.length)
    (hchildren : ∀ part ∈ n.children, part.Numbered nodes) : n.Numbered (nodes ++ [n]) := by
  intro m hm
  rcases hm.eq_or_child with rfl | ⟨part, hpart, hwithin⟩
  · rw [hid]
    exact List.getElem?_concat_length
  · exact (hchildren part hpart).mono (List.prefix_append _ _) m hwithin

/-! ## Building -/

namespace Build

variable {α β : Type} {property : List Node → α → Prop}

theorem makes_pure {a : α} (h : property nodes a) : Makes first nodes (pure a) property := by
  intro draft hdraft a' draft' hrun
  obtain ⟨rfl, rfl⟩ := Prod.mk.inj (Except.ok.inj hrun)
  exact ⟨nodes, List.prefix_rfl, hdraft, h⟩

theorem makes_throw (e : ParseError) : Makes first nodes (throw e : Build α) property :=
  fun _ _ _ _ hrun => nomatch hrun

theorem makes_bind {next : List Node → β → Prop} {build : Build α} {rest : α → Build β}
    (h : Makes first nodes build property)
    (hrest : ∀ nodes' a, nodes <+: nodes' → property nodes' a → Makes first nodes' (rest a) next) :
    Makes first nodes (build >>= rest) next := by
  intro draft hdraft b draft'' hrun
  obtain ⟨a, draft', hbuild, hrun'⟩ := of_bind hrun
  obtain ⟨nodes₁, hprefix, hdraft', hproperty⟩ := h draft hdraft a draft' hbuild
  obtain ⟨nodes₂, hprefix', hdraft'', hnext⟩ :=
    hrest nodes₁ a hprefix hproperty draft' hdraft' b draft'' hrun'
  exact ⟨nodes₂, hprefix.trans hprefix', hdraft'', hnext⟩

theorem makes_alloc (span : Span) {make : NodeId → Node} (hid : ∀ id, (make id).id = id)
    (hchildren : ∀ id, ∀ part ∈ (make id).children, part.Numbered nodes) :
    Makes first nodes (alloc span make) Part.Numbered := by
  intro draft hdraft part draft' hrun
  obtain ⟨rfl, rfl⟩ := Prod.mk.inj (Except.ok.inj hrun)
  have hnode : (make draft.next).id = nodes.length := (hid _).trans hdraft.next_eq
  refine ⟨nodes ++ [make draft.next], List.prefix_append _ _, ⟨?_, ?_⟩,
    Node.numbered_concat hnode (hchildren _)⟩
  · rw [List.length_append, hdraft.next_eq]
    rfl
  · rw [Array.size_push, ← Nat.add_assoc, ← hdraft.next_eq_add]

/-- A node without children. -/
theorem makes_leaf (span : Span) {make : NodeId → Node} (hid : ∀ id, (make id).id = id)
    (hchildren : ∀ id, (make id).children = []) :
    Makes first nodes (alloc span make) Part.Numbered := by
  refine makes_alloc span hid fun id part hpart => ?_
  rw [hchildren id] at hpart
  exact absurd hpart List.not_mem_nil

theorem makes_malformed (p : Pair) : Makes first nodes (malformed p : Build α) property :=
  makes_throw _

end Build

theorem Pair.makes_toIdentifier (p : Pair) :
    p.toIdentifier.Makes first nodes Part.Numbered :=
  Build.makes_leaf _ (fun _ => rfl) fun _ => rfl

theorem makes_applyPrefixes (ops : List (PrefixOp × Nat)) {part : Part}
    (hpart : part.Numbered nodes) :
    (applyPrefixes ops part).Makes first nodes Part.Numbered := by
  induction ops generalizing nodes part with
  | nil => exact Build.makes_pure hpart
  | cons op outer ih =>
    refine Build.makes_bind (Build.makes_alloc _ (fun _ => rfl) ?_) fun nodes' whole _ h => ih h
    intro id child hchild
    rw [List.mem_singleton.mp hchild]
    exact hpart

theorem Formula.makes_build {f : Formula Part} (hf : f.Numbered nodes) :
    f.build.Makes first nodes Part.Numbered := by
  induction f generalizing nodes with
  | operand part => exact Build.makes_pure (hf part (List.mem_singleton_self _))
  | binary op left right ihl ihr =>
    have hleft : left.Numbered nodes := fun p hp => hf p (List.mem_append_left _ hp)
    have hright : right.Numbered nodes := fun p hp =>
      hf p (List.mem_append_right _ (List.mem_cons_of_mem _ hp))
    refine Build.makes_bind (ihl hleft) fun nodes₁ l h₁ hl => ?_
    refine Build.makes_bind (ihr (hright.mono h₁)) fun nodes₂ r h₂ hr => ?_
    refine Build.makes_alloc _ (fun _ => rfl) fun id child hchild => ?_
    exact numbered_pair (Node.Numbered.mono h₂ hl) hr child hchild

theorem Pending.Numbered.makes_finish {pending : Pending} (hpending : pending.Numbered nodes)
    {part : Part} (hpart : part.Numbered nodes) :
    (pending.finish part).Makes first nodes fun nodes' f => f.Numbered nodes' := by
  refine Build.makes_bind (makes_applyPrefixes _ hpart) fun nodes' whole h hwhole => ?_
  split
  · refine Build.makes_pure fun p hp => ?_
    obtain rfl := Sum.inl.inj (List.mem_singleton.mp hp)
    exact hwhole
  · next f op hleft => exact Build.makes_pure (((hpending.left f op hleft).mono h).extend op hwhole)

/-- All parts of a list are numbered. -/
def PartsNumbered (nodes : List Node) (parts : List Part) : Prop :=
  ∀ n ∈ nodesOf parts, n.Numbered nodes

theorem PartsNumbered.mono (h : nodes <+: nodes') {parts : List Part}
    (hparts : PartsNumbered nodes parts) : PartsNumbered nodes' parts :=
  fun n hn => (hparts n hn).mono h

theorem makes_cons {build : Build Part} {rest : Build (List Part)}
    (h : build.Makes first nodes Part.Numbered)
    (hrest : ∀ nodes', nodes <+: nodes' → rest.Makes first nodes' PartsNumbered) :
    Build.Makes first nodes (do let part ← build; let parts ← rest; pure (part :: parts))
      PartsNumbered := by
  refine Build.makes_bind h fun nodes₁ part h₁ hpart => ?_
  refine Build.makes_bind (hrest nodes₁ h₁) fun nodes₂ parts h₂ hparts => Build.makes_pure ?_
  exact List.forall_mem_cons.mpr ⟨Node.Numbered.mono h₂ hpart, hparts⟩

theorem makes_toIdentifiers (names : List Pair) :
    Build.Makes first nodes (names.mapM Pair.toIdentifier) PartsNumbered := by
  induction names generalizing nodes with
  | nil =>
    rw [List.mapM_nil]
    exact Build.makes_pure fun _ h => absurd h List.not_mem_nil
  | cons name more ih =>
    rw [List.mapM_cons]
    exact makes_cons name.makes_toIdentifier fun _ _ => ih


mutual

theorem Pair.makes_toStatement (first : NodeId) (nodes : List Node) (p : Pair) :
    p.toStatement.Makes first nodes Part.Numbered := by
  unfold Pair.toStatement
  split
  · next span text keyword name value =>
    refine Build.makes_bind name.makes_toIdentifier fun nodes₁ target h₁ htarget => ?_
    refine Build.makes_bind (value.makes_toExpression first nodes₁) fun nodes₂ bound h₂ hbound => ?_
    refine Build.makes_alloc _ (fun _ => rfl) fun id => ?_
    exact numbered_pair (Node.Numbered.mono h₂ htarget) hbound
  · next span text keyword value =>
    refine Build.makes_bind (value.makes_toExpression first nodes)
      fun nodes₁ result h₁ hresult => ?_
    exact Build.makes_alloc _ (fun _ => rfl) fun id => List.forall_mem_singleton.mpr hresult
  · next span text expression =>
    refine Build.makes_bind (expression.makes_toExpression first nodes)
      fun nodes₁ inner h₁ hinner => ?_
    exact Build.makes_alloc _ (fun _ => rfl) fun id => List.forall_mem_singleton.mpr hinner
  · exact Build.makes_malformed _
termination_by sizeOf p

theorem Pair.makes_toStatements (first : NodeId) (nodes : List Node) (parts : List Pair) :
    Build.Makes first nodes (Pair.toStatements parts) PartsNumbered := by
  unfold Pair.toStatements
  split
  · exact Build.makes_pure fun _ h => absurd h List.not_mem_nil
  · next more => exact Pair.makes_toStatements first nodes more
  · next p more _ =>
    exact makes_cons (p.makes_toStatement first nodes)
      fun nodes' _ => Pair.makes_toStatements first nodes' more
termination_by sizeOf parts

theorem Pair.makes_toBlock (first : NodeId) (nodes : List Node) (p : Pair) :
    p.toBlock.Makes first nodes Part.Numbered := by
  unfold Pair.toBlock
  split
  · next span text parts =>
    refine Build.makes_bind (Pair.makes_toStatements first nodes parts)
      fun nodes₁ statements h₁ hstatements => ?_
    exact Build.makes_alloc _ (fun _ => rfl) fun id => hstatements
  · exact Build.makes_malformed _
termination_by sizeOf p

theorem Pair.makes_toExpression (first : NodeId) (nodes : List Node) (p : Pair) :
    p.toExpression.Makes first nodes Part.Numbered := by
  unfold Pair.toExpression
  split
  · next span text parts =>
    exact Pair.makes_toFormula first nodes _ Pending.numbered_empty parts
  · exact Build.makes_malformed _
termination_by sizeOf p

theorem Pair.makes_toFormula (first : NodeId) (nodes : List Node) (whole : Pair) {pending : Pending}
    (hpending : pending.Numbered nodes) (parts : List Pair) :
    (Pair.toFormula whole pending parts).Makes first nodes Part.Numbered := by
  unfold Pair.toFormula
  split
  · split
    · exact Build.makes_malformed _
    · next operand hoperand =>
      refine Build.makes_bind (hpending.makes_finish (hpending.operand operand hoperand))
        fun nodes₁ formula h₁ hformula => ?_
      exact Formula.makes_build hformula
  · next r span text parts more =>
    split
    · -- an operator before the operand
      exact Pair.makes_toFormula first nodes whole (hpending.withPrefixes _) more
    · -- the operand
      refine Build.makes_bind (Pair.makes_toPrimary first nodes (.mk r span text parts))
        fun nodes₁ operand h₁ hoperand => ?_
      exact Pair.makes_toFormula first nodes₁ whole ((hpending.mono h₁).withOperand hoperand) more
    · -- an operator after the operand
      next operand op hoperand _ =>
      refine Build.makes_bind (hpending.makes_finish (hpending.operand operand hoperand))
        fun nodes₁ formula h₁ hformula => ?_
      exact Pair.makes_toFormula first nodes₁ whole (Pending.numbered_left hformula op) more
    · -- the arguments of a call
      next operand hoperand _ =>
      split
      · refine Build.makes_bind (Pair.makes_toExpressions first nodes parts)
          fun nodes₁ arguments h₁ harguments => ?_
        have hcallee : operand.Numbered nodes₁ :=
          Node.Numbered.mono h₁ (hpending.operand operand hoperand)
        refine Build.makes_bind (Build.makes_alloc _ (fun _ => rfl) fun id =>
          List.forall_mem_cons.mpr ⟨hcallee, harguments⟩) fun nodes₂ result h₂ hresult => ?_
        exact Pair.makes_toFormula first nodes₂ whole
          ((hpending.mono (h₁.trans h₂)).withOperand hresult) more
      · exact Build.makes_malformed _
termination_by sizeOf parts

theorem Pair.makes_toExpressions (first : NodeId) (nodes : List Node) (parts : List Pair) :
    Build.Makes first nodes (Pair.toExpressions parts) PartsNumbered := by
  unfold Pair.toExpressions
  split
  · exact Build.makes_pure fun _ h => absurd h List.not_mem_nil
  · next p more =>
    exact makes_cons (p.makes_toExpression first nodes)
      fun nodes' _ => Pair.makes_toExpressions first nodes' more
termination_by sizeOf parts

theorem Pair.makes_toPrimary (first : NodeId) (nodes : List Node) (p : Pair) :
    p.toPrimary.Makes first nodes Part.Numbered := by
  unfold Pair.toPrimary
  split
  · next span text parts =>
    exact Pair.makes_toFormula first nodes _ Pending.numbered_empty parts
  · dsimp only
    split
    · exact Build.makes_leaf _ (fun _ => rfl) fun _ => rfl
    · exact Build.makes_throw _
  · exact Build.makes_leaf _ (fun _ => rfl) fun _ => rfl
  · exact Build.makes_leaf _ (fun _ => rfl) fun _ => rfl
  · next span text keyword condition consequence =>
    refine Build.makes_bind (condition.makes_toExpression first nodes)
      fun nodes₁ test h₁ htest => ?_
    refine Build.makes_bind (consequence.makes_toBlock first nodes₁)
      fun nodes₂ chosen h₂ hchosen => ?_
    refine Build.makes_alloc _ (fun _ => rfl) fun id => ?_
    exact numbered_pair (Node.Numbered.mono h₂ htest) hchosen
  · next span text keyword condition consequence keyword' alternative =>
    refine Build.makes_bind (condition.makes_toExpression first nodes)
      fun nodes₁ test h₁ htest => ?_
    refine Build.makes_bind (consequence.makes_toBlock first nodes₁)
      fun nodes₂ chosen h₂ hchosen => ?_
    refine Build.makes_bind (alternative.makes_toBlock first nodes₂)
      fun nodes₃ other h₃ hother => ?_
    refine Build.makes_alloc _ (fun _ => rfl) fun id => List.forall_mem_cons.mpr ⟨?_, ?_⟩
    · exact Node.Numbered.mono (h₂.trans h₃) htest
    · exact numbered_pair (Node.Numbered.mono h₃ hchosen) hother
  · next span text keyword _ _ _ names body =>
    refine Build.makes_bind (makes_toIdentifiers names) fun nodes₁ parameters h₁ hparameters => ?_
    refine Build.makes_bind (body.makes_toBlock first nodes₁) fun nodes₂ code h₂ hcode => ?_
    refine Build.makes_alloc _ (fun _ => rfl) fun id => List.forall_mem_append.mpr ⟨?_, ?_⟩
    · exact hparameters.mono h₂
    · exact List.forall_mem_singleton.mpr hcode
  · exact Build.makes_malformed _
termination_by sizeOf p

end

/-! ## Reading -/

theorem Level.makes_build (level : Level) (size : Nat) (p : Pair) :
    (level.build size p).Makes first nodes Part.Numbered := by
  unfold Level.build
  split
  · next span text parts =>
    refine Build.makes_bind (Pair.makes_toStatements first nodes parts)
      fun nodes₁ statements h₁ hstatements => ?_
    exact Build.makes_alloc _ (fun _ => rfl) fun id => hstatements
  · next item more =>
    refine Build.makes_bind (item.makes_toStatement first nodes) fun nodes₁ only h₁ honly => ?_
    exact Build.makes_alloc _ (fun _ => rfl) fun id => List.forall_mem_singleton.mpr honly
  · next item more =>
    refine Build.makes_bind (item.makes_toExpression first nodes) fun nodes₁ inner h₁ hinner => ?_
    refine Build.makes_bind (Build.makes_alloc _ (fun _ => rfl) fun id =>
      List.forall_mem_singleton.mpr hinner) fun nodes₂ only h₂ honly => ?_
    exact Build.makes_alloc _ (fun _ => rfl) fun id => List.forall_mem_singleton.mpr honly
  · exact Build.makes_malformed _

/-- **What is read is numbered,** after the nodes that were made before. -/
theorem numbered_of_parseAt {source : String} {level : Level} {parsed : Parsed}
    (hfirst : first = nodes.length) (h : parseAt first source level = .ok parsed) :
    ∃ nodes', nodes <+: nodes' ∧ parsed.next = nodes'.length ∧ parsed.root.Numbered nodes' := by
  obtain ⟨p, root, draft, hbuild, rfl⟩ := build_of_parseAt h
  have hnumbers : Draft.Numbers first nodes ⟨first, #[]⟩ := ⟨hfirst, rfl⟩
  obtain ⟨nodes', hprefix, hdraft, hroot⟩ :=
    Level.makes_build level source.utf8ByteSize p _ hnumbers root draft hbuild
  exact ⟨nodes', hprefix, hdraft.next_eq_add.symm.trans hdraft.next_eq, hroot⟩

end

end TraceTree

import TraceTree.Proofs.Syntax.Forms
import TraceTree.Syntax.Printer

set_option autoImplicit false

/-! # Numbering nodes from a later number on

The numbers that nodes get are handed out one after the other, so a text that is read with a greater
first number gives the same tree with all numbers greater by the same amount (`parseAt_later`): what
building does with later numbers is what it does, made later (`Build.Shifts`). Nothing that is written
about a node shows its number. -/

namespace TraceTree

/-! ## Trees -/

namespace Node

mutual

/-- The same tree, with all numbers greater by `k`. -/
def later (k : Nat) : Node → Node
  | program id statements => program (k + id) (laterAll k statements)
  | letStatement id name value => letStatement (k + id) (later k name) (later k value)
  | returnStatement id value => returnStatement (k + id) (later k value)
  | expressionStatement id expression => expressionStatement (k + id) (later k expression)
  | block id statements => block (k + id) (laterAll k statements)
  | identifier id name => identifier (k + id) name
  | boolean id value => boolean (k + id) value
  | integer id value => integer (k + id) value
  | prefixExpression id op right => prefixExpression (k + id) op (later k right)
  | infixExpression id op left right => infixExpression (k + id) op (later k left) (later k right)
  | ifExpression id condition consequence none =>
    ifExpression (k + id) (later k condition) (later k consequence) none
  | ifExpression id condition consequence (some alternative) =>
    ifExpression (k + id) (later k condition) (later k consequence) (some (later k alternative))
  | functionLiteral id parameters body =>
    functionLiteral (k + id) (laterAll k parameters) (later k body)
  | call id function arguments => call (k + id) (later k function) (laterAll k arguments)

/-- The same trees, with all numbers greater by `k`. -/
def laterAll (k : Nat) : List Node → List Node
  | [] => []
  | node :: nodes => later k node :: laterAll k nodes

end

variable (k : Nat) (n m : Node) (nodes : List Node)

theorem laterAll_eq_map : laterAll k nodes = nodes.map (later k) := by
  induction nodes with
  | nil => rfl
  | cons n nodes ih => rw [laterAll, ih, List.map_cons]

theorem later_ifExpression (id : NodeId) (condition consequence : Node)
    (alternative : Option Node) :
    (ifExpression id condition consequence alternative).later k =
      ifExpression (k + id) (condition.later k) (consequence.later k)
        (alternative.map (later k)) := by
  cases alternative <;> rfl

@[simp] theorem id_later : (n.later k).id = k + n.id := by
  cases n with
  | ifExpression id c t e => cases e <;> rfl
  | _ => rfl

/-- Two nodes are one and the same later if they were before. -/
@[simp] theorem is_later : (n.later k).is (m.later k) = n.is m := by
  rw [is, is, id_later, id_later, Bool.eq_iff_iff, beq_iff_eq, beq_iff_eq]
  exact Nat.add_left_cancel_iff

@[simp] theorem name?_later : (n.later k).name? = n.name? := by
  cases n with
  | ifExpression id c t e => cases e <;> rfl
  | _ => rfl

@[simp] theorem typeName_later : (n.later k).typeName = n.typeName := by
  cases n with
  | ifExpression id c t e => cases e <;> rfl
  | _ => rfl

mutual

/-- The text of a tree does not show its numbers. -/
theorem text_later (k : Nat) (n : Node) : (n.later k).text = n.text := by
  cases n with
  | ifExpression id c t e =>
    cases e with
    | none => simp [later, text, text_later k c, text_later k t]
    | some e => simp [later, text, text_later k c, text_later k t, text_later k e]
  | program id xs => simp [later, text, texts_later k xs]
  | letStatement id n v => simp [later, text, text_later k n, text_later k v]
  | returnStatement id v => simp [later, text, text_later k v]
  | expressionStatement id e => simp [later, text, text_later k e]
  | block id xs =>
    have hxs := texts_later k xs
    cases xs with
    | nil => rfl
    | cons x xs =>
      rw [laterAll] at hxs
      simp [later, laterAll, text, hxs]
  | identifier id x => rfl
  | boolean id b => rfl
  | integer id i => rfl
  | prefixExpression id op r => simp [later, text, text_later k r]
  | infixExpression id op l r => simp [later, text, text_later k l, text_later k r]
  | functionLiteral id ps b => simp [later, text, texts_later k ps, text_later k b]
  | call id f xs => simp [later, text, text_later k f, texts_later k xs]
termination_by sizeOf n

theorem texts_later (k : Nat) (nodes : List Node) : texts (laterAll k nodes) = texts nodes := by
  cases nodes with
  | nil => rfl
  | cons n nodes => rw [laterAll, texts, texts, text_later k n, texts_later k nodes]
termination_by sizeOf nodes

end

end Node

/-! ## What is built -/

/-- The same part with later numbers. -/
def Part.later (k : Nat) (part : Part) : Part := { part with node := part.node.later k }

/-- The same formula with later numbers. -/
def Formula.later (k : Nat) : Formula Part → Formula Part
  | operand part => operand (part.later k)
  | binary op left right => binary op (left.later k) (right.later k)

/-- The same pending expression with later numbers. -/
def Pending.later (k : Nat) (pending : Pending) : Pending where
  left := pending.left.map fun (formula, op) => (formula.later k, op)
  prefixes := pending.prefixes
  operand := pending.operand.map (Part.later k)

/-- The same draft with a later next number. -/
def Draft.later (k : Nat) (draft : Draft) : Draft := { draft with next := k + draft.next }

theorem nodesOf_later (k : Nat) (parts : List Part) :
    nodesOf (parts.map (Part.later k)) = Node.laterAll k (nodesOf parts) := by
  rw [Node.laterAll_eq_map]
  simp [nodesOf, Part.later]

theorem Formula.later_extend (k : Nat) (op : InfixOp) (part : Part) (f : Formula Part) :
    (f.extend op part).later k = (f.later k).extend op (part.later k) := by
  induction f with
  | operand p => rfl
  | binary o left right _ ih =>
    simp only [extend, later]
    split
    · simp only [later, ih]
    · rfl

/-- What a building does from a later number on is what another one does, made later. -/
def Build.Shifts {α β : Type} (k : Nat) (made : α → β) (build : Build α) (build' : Build β) :
    Prop :=
  ∀ draft, build' (draft.later k) = (build draft).map fun r => (made r.1, r.2.later k)

/-- A building does from a later number on what it does, made later. -/
abbrev Build.Steady {α : Type} (k : Nat) (made : α → α) (build : Build α) : Prop :=
  Build.Shifts k made build build

namespace Build

variable {α β γ δ : Type} {k : Nat} {made : α → β} {made' : γ → δ}

theorem shifts_pure (a : α) : Shifts k made (pure a) (pure (made a)) := fun _ => rfl

theorem shifts_throw (e : ParseError) : Shifts k made (throw e) (throw e) := fun _ => rfl

theorem shifts_malformed (p : Pair) : Shifts k made (malformed p) (malformed p) := fun _ => rfl

theorem Shifts.bind {build : Build α} {build' : Build β} {rest : α → Build γ}
    {rest' : β → Build δ} (h : Shifts k made build build')
    (hrest : ∀ a, Shifts k made' (rest a) (rest' (made a))) :
    Shifts k made' (build >>= rest) (build' >>= rest') := by
  intro draft
  simp only [Bind.bind, StateT.bind, Except.bind, h draft]
  cases build draft with
  | error e => rfl
  | ok r => exact hrest r.1 r.2

theorem shifts_alloc (span : Span) {make make' : NodeId → Node}
    (h : ∀ id, make' (k + id) = (make id).later k) :
    Shifts k (Part.later k) (alloc span make) (alloc span make') := by
  intro draft
  have hnode := h draft.next
  simp only [alloc, Draft.later, hnode]
  rfl

theorem Shifts.cons {build build' : Build Part} {rest rest' : Build (List Part)}
    (h : Shifts k (Part.later k) build build')
    (hrest : Shifts k (List.map (Part.later k)) rest rest') :
    Shifts k (List.map (Part.later k))
      (do let part ← build; let parts ← rest; pure (part :: parts))
      (do let part ← build'; let parts ← rest'; pure (part :: parts)) :=
  h.bind fun part => hrest.bind fun parts => shifts_pure (part :: parts)

end Build

open Build

section

variable (k : Nat)

theorem shifts_applyPrefixes (ops : List (PrefixOp × Nat)) (part : Part) :
    Shifts k (Part.later k) (applyPrefixes ops part) (applyPrefixes ops (part.later k)) := by
  induction ops generalizing part with
  | nil => exact shifts_pure part
  | cons op outer ih => exact (shifts_alloc _ fun _ => rfl).bind ih

theorem Formula.shifts_build (f : Formula Part) :
    Shifts k (Part.later k) f.build (f.later k).build := by
  induction f with
  | operand part => exact shifts_pure part
  | binary op left right ihl ihr =>
    exact ihl.bind fun l => ihr.bind fun r => shifts_alloc _ fun _ => rfl

theorem Pending.shifts_finish (pending : Pending) (part : Part) :
    Shifts k (Formula.later k) (pending.finish part) ((pending.later k).finish (part.later k)) := by
  refine (shifts_applyPrefixes k _ part).bind fun whole => ?_
  obtain ⟨left, prefixes, operand⟩ := pending
  cases left with
  | none => exact shifts_pure (Formula.operand whole)
  | some formula =>
    obtain ⟨formula, op⟩ := formula
    have hpure : Shifts k (Formula.later k) _ _ := shifts_pure (formula.extend op whole)
    rwa [Formula.later_extend] at hpure

theorem Pair.steady_toIdentifier (p : Pair) : Steady k (Part.later k) p.toIdentifier :=
  shifts_alloc _ fun _ => rfl

theorem steady_toIdentifiers (names : List Pair) :
    Steady k (List.map (Part.later k)) (names.mapM Pair.toIdentifier) := by
  induction names with
  | nil => exact fun _ => rfl
  | cons name more ih =>
    rw [List.mapM_cons]
    exact (name.steady_toIdentifier k).cons ih

end

mutual

theorem Pair.steady_toStatement (k : Nat) (p : Pair) :
    Steady k (Part.later k) p.toStatement := by
  unfold Pair.toStatement
  split
  · next span text keyword name value =>
    refine (name.steady_toIdentifier k).bind fun target => ?_
    exact (value.steady_toExpression k).bind fun bound => shifts_alloc _ fun _ => rfl
  · next span text keyword value =>
    exact (value.steady_toExpression k).bind fun result => shifts_alloc _ fun _ => rfl
  · next span text expression =>
    exact (expression.steady_toExpression k).bind fun inner => shifts_alloc _ fun _ => rfl
  · exact shifts_malformed _
termination_by sizeOf p

theorem Pair.steady_toStatements (k : Nat) (parts : List Pair) :
    Steady k (List.map (Part.later k)) (Pair.toStatements parts) := by
  unfold Pair.toStatements
  split
  · exact shifts_pure []
  · next more => exact Pair.steady_toStatements k more
  · next p more _ => exact (p.steady_toStatement k).cons (Pair.steady_toStatements k more)
termination_by sizeOf parts

theorem Pair.steady_toBlock (k : Nat) (p : Pair) : Steady k (Part.later k) p.toBlock := by
  unfold Pair.toBlock
  split
  · next span text parts =>
    refine (Pair.steady_toStatements k parts).bind fun statements => shifts_alloc _ fun id => ?_
    rw [nodesOf_later]
    rfl
  · exact shifts_malformed _
termination_by sizeOf p

theorem Pair.steady_toExpression (k : Nat) (p : Pair) :
    Steady k (Part.later k) p.toExpression := by
  unfold Pair.toExpression
  split
  · next span text parts => exact Pair.shifts_toFormula k _ .empty parts
  · exact shifts_malformed _
termination_by sizeOf p

theorem Pair.shifts_toFormula (k : Nat) (whole : Pair) (pending : Pending) (parts : List Pair) :
    Shifts k (Part.later k) (Pair.toFormula whole pending parts)
      (Pair.toFormula whole (pending.later k) parts) := by
  obtain ⟨left, prefixes, operand⟩ := pending
  match parts with
  | [] =>
    cases operand with
    | none =>
      rw [Pair.toFormula, Pair.toFormula]
      exact shifts_malformed whole
    | some part =>
      rw [Pair.toFormula_nil rfl, Pair.toFormula_nil rfl]
      exact (Pending.shifts_finish k _ part).bind fun f => f.shifts_build k
  | .mk r span text inner :: more =>
    cases operand with
    | none =>
      cases hprefix : (Pair.mk r span text inner).rule.prefixOp? with
      | some op =>
        -- an operator before the operand
        rw [Pair.toFormula_prefix rfl hprefix, Pair.toFormula_prefix rfl hprefix]
        exact Pair.shifts_toFormula k whole ⟨left, (op, span.start) :: prefixes, none⟩ more
      | none =>
        -- the operand
        rw [Pair.toFormula_primary rfl hprefix, Pair.toFormula_primary rfl hprefix]
        refine (Pair.steady_toPrimary k (.mk r span text inner)).bind fun operand => ?_
        exact Pair.shifts_toFormula k whole ⟨left, prefixes, some operand⟩ more
    | some part =>
      cases hinfix : (Pair.mk r span text inner).rule.infixOp? with
      | some op =>
        -- an operator after the operand
        rw [Pair.toFormula_infix rfl hinfix, Pair.toFormula_infix rfl hinfix]
        refine (Pending.shifts_finish k _ part).bind fun formula => ?_
        exact Pair.shifts_toFormula k whole ⟨some (formula, op), [], none⟩ more
      | none =>
        by_cases hr : r = .callArgs
        · -- the arguments of a call
          subst hr
          rw [Pair.toFormula_callArgs rfl, Pair.toFormula_callArgs rfl]
          refine (Pair.steady_toExpressions k inner).bind fun arguments => ?_
          refine Shifts.bind (shifts_alloc _ fun id => ?_) fun result => ?_
          · rw [nodesOf_later]
            rfl
          · exact Pair.shifts_toFormula k whole ⟨left, prefixes, some result⟩ more
        · have hrule : r.infixOp? = none := hinfix
          rw [Pair.toFormula, Pair.toFormula, hrule]
          simp only [Pending.later, Option.map_some, if_neg hr]
          exact shifts_malformed whole
termination_by sizeOf parts

theorem Pair.steady_toExpressions (k : Nat) (parts : List Pair) :
    Steady k (List.map (Part.later k)) (Pair.toExpressions parts) := by
  unfold Pair.toExpressions
  split
  · exact shifts_pure []
  · next p more => exact (p.steady_toExpression k).cons (Pair.steady_toExpressions k more)
termination_by sizeOf parts

theorem Pair.steady_toPrimary (k : Nat) (p : Pair) : Steady k (Part.later k) p.toPrimary := by
  unfold Pair.toPrimary
  split
  · next span text parts => exact Pair.shifts_toFormula k _ .empty parts
  · dsimp only
    split
    · exact shifts_alloc _ fun _ => rfl
    · exact shifts_throw _
  · exact shifts_alloc _ fun _ => rfl
  · exact shifts_alloc _ fun _ => rfl
  · next span text keyword condition consequence =>
    refine (condition.steady_toExpression k).bind fun test => ?_
    exact (consequence.steady_toBlock k).bind fun chosen => shifts_alloc _ fun _ => rfl
  · next span text keyword condition consequence otherwise alternative =>
    refine (condition.steady_toExpression k).bind fun test => ?_
    refine (consequence.steady_toBlock k).bind fun chosen => ?_
    exact (alternative.steady_toBlock k).bind fun other => shifts_alloc _ fun _ => rfl
  · next span text keyword _ _ _ names body =>
    refine (steady_toIdentifiers k names).bind fun parameters => ?_
    refine (body.steady_toBlock k).bind fun code => shifts_alloc _ fun id => ?_
    rw [nodesOf_later]
    rfl
  · exact shifts_malformed _
termination_by sizeOf p

end

/-! ## Reading -/

theorem Level.steady_build (k : Nat) (level : Level) (size : Nat) (p : Pair) :
    Steady k (Part.later k) (level.build size p) := by
  unfold Level.build
  split
  · next span text parts =>
    refine (Pair.steady_toStatements k parts).bind fun statements => shifts_alloc _ fun id => ?_
    rw [nodesOf_later]
    rfl
  · next item _ =>
    exact (item.steady_toStatement k).bind fun only => shifts_alloc _ fun _ => rfl
  · next item _ =>
    refine (item.steady_toExpression k).bind fun inner => ?_
    exact (shifts_alloc _ fun _ => rfl).bind fun only => shifts_alloc _ fun _ => rfl
  · exact shifts_malformed _

/-- The same text, read with later numbers. -/
def Parsed.later (k : Nat) (parsed : Parsed) : Parsed :=
  { parsed with root := parsed.root.later k, first := k + parsed.first }

theorem Parsed.next_later (k : Nat) (parsed : Parsed) :
    (parsed.later k).next = k + parsed.next :=
  Nat.add_assoc _ _ _

/-- **A text is read alike from a later number on:** all numbers are later by the same amount, and
nothing else is different. -/
theorem parseAt_later (k : Nat) (first : NodeId) (source : String) (level : Level) :
    parseAt (k + first) source level = (parseAt first source level).map (Parsed.later k) := by
  unfold parseAt
  split
  · next p _ _ _ =>
    have hbuild := level.steady_build k source.utf8ByteSize p ⟨first, #[]⟩
    simp only [Draft.later] at hbuild
    simp only [bind, Except.bind, hbuild]
    cases level.build source.utf8ByteSize p ⟨first, #[]⟩ <;> rfl
  · rfl
  · rfl

end TraceTree

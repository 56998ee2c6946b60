import TraceTree.Proofs.Grammar.Pairs
import TraceTree.Proofs.Syntax.Reading

set_option autoImplicit false

/-! # Trees that keep to the grammar

The types of nodes allow any node anywhere. A tree that was read has in each place a node that the
grammar allows there: statements in programs and blocks, blocks as bodies, expressions as operands
(`grammatical_of_parseAt`). Its names are names and its integers are those that can be written. -/

namespace TraceTree

/-- The places in a tree that the grammar tells apart. -/
inductive Place where
  | name
  | expression
  | block
  | statement

/-- A node, with all nodes below it, can stand in a place. -/
inductive Node.Grammatical : Place → Node → Prop where
  | name {id : NodeId} {name : String} (h : IsName name.toList) :
      Grammatical .name (identifier id name)
  | identifier {id : NodeId} {name : String} (h : IsName name.toList) :
      Grammatical .expression (identifier id name)
  | boolean {id : NodeId} {value : Bool} : Grammatical .expression (boolean id value)
  | integer {id : NodeId} {value : Nat} (h : value ≤ maxInteger) :
      Grammatical .expression (integer id (Int64.ofNat value))
  | prefixExpression {id : NodeId} {op : PrefixOp} {right : Node}
      (hright : Grammatical .expression right) :
      Grammatical .expression (prefixExpression id op right)
  | infixExpression {id : NodeId} {op : InfixOp} {left right : Node}
      (hleft : Grammatical .expression left) (hright : Grammatical .expression right) :
      Grammatical .expression (infixExpression id op left right)
  | ifExpression {id : NodeId} {condition consequence : Node}
      (hcondition : Grammatical .expression condition)
      (hconsequence : Grammatical .block consequence) :
      Grammatical .expression (ifExpression id condition consequence none)
  | ifElseExpression {id : NodeId} {condition consequence alternative : Node}
      (hcondition : Grammatical .expression condition)
      (hconsequence : Grammatical .block consequence)
      (halternative : Grammatical .block alternative) :
      Grammatical .expression (ifExpression id condition consequence (some alternative))
  | functionLiteral {id : NodeId} {parameters : List Node} {body : Node}
      (hparameters : ∀ p ∈ parameters, Grammatical .name p) (hbody : Grammatical .block body) :
      Grammatical .expression (functionLiteral id parameters body)
  | call {id : NodeId} {function : Node} {arguments : List Node}
      (hfunction : Grammatical .expression function)
      (harguments : ∀ a ∈ arguments, Grammatical .expression a) :
      Grammatical .expression (call id function arguments)
  | block {id : NodeId} {statements : List Node}
      (hstatements : ∀ s ∈ statements, Grammatical .statement s) :
      Grammatical .block (block id statements)
  | letStatement {id : NodeId} {name value : Node} (hname : Grammatical .name name)
      (hvalue : Grammatical .expression value) : Grammatical .statement (letStatement id name value)
  | returnStatement {id : NodeId} {value : Node} (hvalue : Grammatical .expression value) :
      Grammatical .statement (returnStatement id value)
  | expressionStatement {id : NodeId} {expression : Node}
      (hexpression : Grammatical .expression expression) :
      Grammatical .statement (expressionStatement id expression)

/-- The node of a part can stand in a place. -/
def Part.Stands (place : Place) (part : Part) : Prop := part.node.Grammatical place

/-- The nodes of all parts can stand in a place. -/
def PartsStand (place : Place) (parts : List Part) : Prop :=
  ∀ n ∈ nodesOf parts, n.Grammatical place

/-- All operands are expressions. -/
def Formula.Stands (f : Formula Part) : Prop :=
  ∀ part, .inl part ∈ f.inOrder → part.Stands .expression

/-- All that is pending consists of expressions. -/
structure Pending.Stands (pending : Pending) : Prop where
  left : ∀ f op, pending.left = some (f, op) → f.Stands
  operand : ∀ part, pending.operand = some part → part.Stands .expression

/-- What is built, if anything is, has a property. -/
def Build.Ensures {α : Type} (build : Build α) (property : α → Prop) : Prop :=
  ∀ draft a draft', build draft = .ok (a, draft') → property a

namespace Build

variable {α β : Type} {property : α → Prop}

theorem ensures_pure {a : α} (h : property a) : Ensures (pure a) property := by
  intro draft a' draft' hrun
  obtain ⟨rfl, -⟩ := Prod.mk.inj (Except.ok.inj hrun)
  exact h

theorem ensures_throw (e : ParseError) : Ensures (throw e : Build α) property :=
  fun _ _ _ hrun => nomatch hrun

theorem ensures_malformed (p : Pair) : Ensures (malformed p : Build α) property :=
  ensures_throw _

theorem ensures_bind {after : β → Prop} {build : Build α} {rest : α → Build β}
    (h : build.Ensures property) (hrest : ∀ a, property a → (rest a).Ensures after) :
    Ensures (build >>= rest) after := by
  intro draft b draft'' hrun
  obtain ⟨a, draft', hbuild, hrun'⟩ := of_bind hrun
  exact hrest a (h draft a draft' hbuild) draft' b draft'' hrun'

theorem ensures_alloc {place : Place} (span : Span) {make : NodeId → Node}
    (h : ∀ id, (make id).Grammatical place) : Ensures (alloc span make) (Part.Stands place) := by
  intro draft part draft' hrun
  obtain ⟨rfl, -⟩ := Prod.mk.inj (Except.ok.inj hrun)
  exact h _

theorem ensures_cons {place : Place} {build : Build Part} {rest : Build (List Part)}
    (h : build.Ensures (Part.Stands place)) (hrest : rest.Ensures (PartsStand place)) :
    Ensures (do let part ← build; let parts ← rest; pure (part :: parts)) (PartsStand place) := by
  refine ensures_bind h fun part hpart => ensures_bind hrest fun parts hparts => ensures_pure ?_
  exact List.forall_mem_cons.mpr ⟨hpart, hparts⟩

theorem ensures_nil {place : Place} : Ensures (pure []) (PartsStand place) :=
  ensures_pure fun _ h => absurd h List.not_mem_nil

end Build

open Build

/-! ## Formulas -/

theorem Formula.Stands.extend {f : Formula Part} (hf : f.Stands) (op : InfixOp) {part : Part}
    (hpart : part.Stands .expression) : (f.extend op part).Stands :=
  f.forall_extend hf op hpart

theorem ensures_applyPrefixes (ops : List (PrefixOp × Nat)) {part : Part}
    (hpart : part.Stands .expression) :
    (applyPrefixes ops part).Ensures (Part.Stands .expression) := by
  induction ops generalizing part with
  | nil => exact ensures_pure hpart
  | cons op outer ih =>
    exact ensures_bind (ensures_alloc _ fun _ => .prefixExpression hpart) fun whole h => ih h

theorem Formula.ensures_build {f : Formula Part} (hf : f.Stands) :
    f.build.Ensures (Part.Stands .expression) := by
  induction f with
  | operand part => exact ensures_pure (hf part (List.mem_singleton_self _))
  | binary op left right ihl ihr =>
    have hleft : left.Stands := fun p hp => hf p (List.mem_append_left _ hp)
    have hright : right.Stands := fun p hp =>
      hf p (List.mem_append_right _ (List.mem_cons_of_mem _ hp))
    refine ensures_bind (ihl hleft) fun l hl => ensures_bind (ihr hright) fun r hr => ?_
    exact ensures_alloc _ fun _ => .infixExpression hl hr

theorem Pending.Stands.ensures_finish {pending : Pending} (hpending : pending.Stands) {part : Part}
    (hpart : part.Stands .expression) : (pending.finish part).Ensures Formula.Stands := by
  refine ensures_bind (ensures_applyPrefixes _ hpart) fun whole hwhole => ?_
  split
  · refine ensures_pure fun p hp => ?_
    obtain rfl := Sum.inl.inj (List.mem_singleton.mp hp)
    exact hwhole
  · next f op hleft => exact ensures_pure ((hpending.left f op hleft).extend op hwhole)

theorem Pending.stands_empty : Pending.empty.Stands :=
  ⟨fun _ _ h => (nomatch h), fun _ h => (nomatch h)⟩

/-- One more prefix operator changes nothing about what is pending. -/
theorem Pending.Stands.withPrefixes {pending : Pending} (hpending : pending.Stands)
    (prefixes : List (PrefixOp × Nat)) : Pending.Stands { pending with prefixes } :=
  ⟨hpending.left, hpending.operand⟩

theorem Pending.Stands.withOperand {pending : Pending} (hpending : pending.Stands) {part : Part}
    (hpart : part.Stands .expression) : Pending.Stands { pending with operand := some part } := by
  refine ⟨hpending.left, fun p hp => ?_⟩
  rw [← Option.some.inj hp]
  exact hpart

theorem Pending.stands_left {f : Formula Part} (hf : f.Stands) (op : InfixOp) :
    Pending.Stands ⟨some (f, op), [], none⟩ := by
  refine ⟨fun f' op' hleft => ?_, fun _ h => (nomatch h)⟩
  obtain ⟨rfl, -⟩ := Prod.mk.inj (Option.some.inj hleft)
  exact hf

/-! ## Building from named pairs -/

theorem Pair.Named.fits {p : Pair} (h : p.Named) : p.Fits := by
  cases h with
  | mk fits _ => exact fits

theorem Pair.Named.inside {r : Rule} {span : Span} {text : List Char} {inner : List Pair}
    (h : (Pair.mk r span text inner).Named) : ∀ q ∈ inner, q.Named := by
  cases h with
  | mk _ inside => exact inside

theorem Pair.Named.isName {p : Pair} (h : p.Named) (hrule : p.rule = .identifier) :
    IsName p.text := by
  obtain ⟨r, span, text, inner⟩ := p
  obtain rfl : r = .identifier := hrule
  exact h.fits

theorem Pair.Named.ensures_toIdentifier {p : Pair} (h : p.Named) (hrule : p.rule = .identifier) :
    p.toIdentifier.Ensures (Part.Stands .name) :=
  ensures_alloc _ fun _ => .name (by rw [String.toList_ofList]; exact h.isName hrule)

theorem ensures_toIdentifiers {names : List Pair} (h : ∀ name ∈ names, name.Named)
    (hrule : ∀ name ∈ names, name.rule = .identifier) :
    Ensures (names.mapM Pair.toIdentifier) (PartsStand .name) := by
  induction names with
  | nil =>
    rw [List.mapM_nil]
    exact ensures_nil
  | cons name more ih =>
    rw [List.mapM_cons]
    obtain ⟨hname, hmore⟩ := List.forall_mem_cons.mp h
    obtain ⟨hnamerule, hmorerule⟩ := List.forall_mem_cons.mp hrule
    exact ensures_cons (hname.ensures_toIdentifier hnamerule) (ih hmore hmorerule)

mutual

theorem Pair.ensures_toStatement (p : Pair) (h : p.Named) :
    p.toStatement.Ensures (Part.Stands .statement) := by
  unfold Pair.toStatement
  split
  · next span text keyword name value =>
    obtain ⟨hname, hvalue⟩ := List.forall_mem_cons.mp (List.forall_mem_cons.mp h.inside).2
    have hvalue := List.forall_mem_singleton.mp hvalue
    refine ensures_bind (hname.ensures_toIdentifier h.fits) fun target htarget => ?_
    refine ensures_bind (value.ensures_toExpression hvalue) fun bound hbound => ?_
    exact ensures_alloc _ fun _ => .letStatement htarget hbound
  · next span text keyword value =>
    have hvalue := List.forall_mem_singleton.mp (List.forall_mem_cons.mp h.inside).2
    refine ensures_bind (value.ensures_toExpression hvalue) fun result hresult => ?_
    exact ensures_alloc _ fun _ => .returnStatement hresult
  · next span text expression =>
    have hexpression := List.forall_mem_singleton.mp h.inside
    refine ensures_bind (expression.ensures_toExpression hexpression) fun inner hinner => ?_
    exact ensures_alloc _ fun _ => .expressionStatement hinner
  · exact ensures_malformed _
termination_by sizeOf p

theorem Pair.ensures_toStatements (parts : List Pair) (h : ∀ p ∈ parts, p.Named) :
    Ensures (Pair.toStatements parts) (PartsStand .statement) := by
  unfold Pair.toStatements
  split
  · exact ensures_nil
  · next more => exact Pair.ensures_toStatements more (List.forall_mem_cons.mp h).2
  · next p more _ =>
    obtain ⟨hp, hmore⟩ := List.forall_mem_cons.mp h
    exact ensures_cons (p.ensures_toStatement hp) (Pair.ensures_toStatements more hmore)
termination_by sizeOf parts

theorem Pair.ensures_toBlock (p : Pair) (h : p.Named) :
    p.toBlock.Ensures (Part.Stands .block) := by
  unfold Pair.toBlock
  split
  · next span text parts =>
    refine ensures_bind (Pair.ensures_toStatements parts h.inside) fun statements hstatements => ?_
    exact ensures_alloc _ fun _ => .block hstatements
  · exact ensures_malformed _
termination_by sizeOf p

theorem Pair.ensures_toExpression (p : Pair) (h : p.Named) :
    p.toExpression.Ensures (Part.Stands .expression) := by
  unfold Pair.toExpression
  split
  · next span text parts =>
    exact Pair.ensures_toFormula _ Pending.stands_empty parts h.inside
  · exact ensures_malformed _
termination_by sizeOf p

theorem Pair.ensures_toFormula (whole : Pair) {pending : Pending} (hpending : pending.Stands)
    (parts : List Pair) (h : ∀ p ∈ parts, p.Named) :
    (Pair.toFormula whole pending parts).Ensures (Part.Stands .expression) := by
  unfold Pair.toFormula
  split
  · split
    · exact ensures_malformed _
    · next operand hoperand =>
      refine ensures_bind (hpending.ensures_finish (hpending.operand operand hoperand))
        fun formula hformula => ?_
      exact Formula.ensures_build hformula
  · next r span text parts more =>
    obtain ⟨hp, hmore⟩ := List.forall_mem_cons.mp h
    split
    · -- an operator before the operand
      exact Pair.ensures_toFormula whole (hpending.withPrefixes _) more hmore
    · -- the operand
      refine ensures_bind (Pair.ensures_toPrimary (.mk r span text parts) hp)
        fun operand hoperand => ?_
      exact Pair.ensures_toFormula whole (hpending.withOperand hoperand) more hmore
    · -- an operator after the operand
      next operand op hoperand _ =>
      refine ensures_bind (hpending.ensures_finish (hpending.operand operand hoperand))
        fun formula hformula => ?_
      exact Pair.ensures_toFormula whole (Pending.stands_left hformula op) more hmore
    · -- the arguments of a call
      next operand hoperand _ =>
      split
      · refine ensures_bind (Pair.ensures_toExpressions parts hp.inside)
          fun arguments harguments => ?_
        refine ensures_bind (ensures_alloc _ fun _ =>
          .call (hpending.operand operand hoperand) harguments) fun result hresult => ?_
        exact Pair.ensures_toFormula whole (hpending.withOperand hresult) more hmore
      · exact ensures_malformed _
termination_by sizeOf parts

theorem Pair.ensures_toExpressions (parts : List Pair) (h : ∀ p ∈ parts, p.Named) :
    Ensures (Pair.toExpressions parts) (PartsStand .expression) := by
  unfold Pair.toExpressions
  split
  · exact ensures_nil
  · next p more =>
    obtain ⟨hp, hmore⟩ := List.forall_mem_cons.mp h
    exact ensures_cons (p.ensures_toExpression hp) (Pair.ensures_toExpressions more hmore)
termination_by sizeOf parts

theorem Pair.ensures_toPrimary (p : Pair) (h : p.Named) :
    p.toPrimary.Ensures (Part.Stands .expression) := by
  unfold Pair.toPrimary
  split
  · next span text parts =>
    exact Pair.ensures_toFormula _ Pending.stands_empty parts h.inside
  · dsimp only
    split
    · next hvalue => exact ensures_alloc _ fun _ => .integer hvalue
    · exact ensures_throw _
  · exact ensures_alloc _ fun _ => .boolean
  · exact ensures_alloc _ fun _ => .identifier (by rw [String.toList_ofList]; exact h.fits)
  · next span text keyword condition consequence =>
    obtain ⟨hcondition, hconsequence⟩ :=
      List.forall_mem_cons.mp (List.forall_mem_cons.mp h.inside).2
    have hconsequence := List.forall_mem_singleton.mp hconsequence
    refine ensures_bind (condition.ensures_toExpression hcondition) fun test htest => ?_
    refine ensures_bind (consequence.ensures_toBlock hconsequence) fun chosen hchosen => ?_
    exact ensures_alloc _ fun _ => .ifExpression htest hchosen
  · next span text keyword condition consequence keyword' alternative =>
    obtain ⟨hcondition, hrest⟩ := List.forall_mem_cons.mp (List.forall_mem_cons.mp h.inside).2
    obtain ⟨hconsequence, hrest⟩ := List.forall_mem_cons.mp hrest
    have halternative := List.forall_mem_singleton.mp (List.forall_mem_cons.mp hrest).2
    refine ensures_bind (condition.ensures_toExpression hcondition) fun test htest => ?_
    refine ensures_bind (consequence.ensures_toBlock hconsequence) fun chosen hchosen => ?_
    refine ensures_bind (alternative.ensures_toBlock halternative) fun other hother => ?_
    exact ensures_alloc _ fun _ => .ifElseExpression htest hchosen hother
  · next span text keyword _ _ _ names body =>
    obtain ⟨hnames, hbody⟩ := List.forall_mem_cons.mp (List.forall_mem_cons.mp h.inside).2
    have hbody := List.forall_mem_singleton.mp hbody
    refine ensures_bind (ensures_toIdentifiers hnames.inside h.fits)
      fun parameters hparameters => ?_
    refine ensures_bind (body.ensures_toBlock hbody) fun code hcode => ?_
    exact ensures_alloc _ fun _ => .functionLiteral hparameters hcode
  · exact ensures_malformed _
termination_by sizeOf p

end

/-! ## Reading -/

/-- A program of statements. -/
def Node.IsProgram (n : Node) : Prop :=
  ∃ id statements, n = .program id statements ∧ ∀ s ∈ statements, s.Grammatical .statement

theorem Build.ensures_program {statements : List Node}
    (h : ∀ s ∈ statements, s.Grammatical .statement) (span : Span) :
    Ensures (alloc span (.program · statements)) fun part => part.node.IsProgram := by
  intro draft part draft' hrun
  obtain ⟨rfl, -⟩ := Prod.mk.inj (Except.ok.inj hrun)
  exact ⟨_, _, rfl, h⟩

theorem Level.ensures_build (level : Level) (size : Nat) {p : Pair} (h : p.Named) :
    (level.build size p).Ensures fun part => part.node.IsProgram := by
  unfold Level.build
  split
  · next span text parts =>
    exact ensures_bind (Pair.ensures_toStatements parts h.inside) fun statements hstatements =>
      ensures_program hstatements _
  · next item more =>
    have hitem := (List.forall_mem_cons.mp h.inside).1
    exact ensures_bind (item.ensures_toStatement hitem) fun only honly =>
      ensures_program (List.forall_mem_singleton.mpr honly) _
  · next item more =>
    have hitem := (List.forall_mem_cons.mp h.inside).1
    refine ensures_bind (item.ensures_toExpression hitem) fun inner hinner => ?_
    refine ensures_bind (ensures_alloc _ fun _ => .expressionStatement hinner) fun only honly => ?_
    exact ensures_program (List.forall_mem_singleton.mpr honly) _
  · exact ensures_malformed _

/-- **What is read keeps to the grammar.** -/
theorem grammatical_of_parseAt {first : NodeId} {source : String} {level : Level} {parsed : Parsed}
    (h : parseAt first source level = .ok parsed) : parsed.root.IsProgram := by
  obtain ⟨p, next, a, hmatched, root, draft, hbuild, rfl⟩ := matched_of_parseAt h
  have hnamed := Rule.named_of_recognise hmatched p List.mem_cons_self
  exact Level.ensures_build level source.utf8ByteSize hnamed _ root draft hbuild

end TraceTree

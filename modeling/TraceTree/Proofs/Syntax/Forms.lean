import Mathlib.Data.List.Forall2
import TraceTree.Proofs.Syntax.Reading

set_option autoImplicit false

/-! # The form of what is built

Building never fails on the pairs of a grammatical text, and the tree it makes has the form that the
pairs describe. `Build.Gives` says both at once. The pairs of an operand are followed through an
expression by what they do to a formula that is pending (`IsOperand`). -/

namespace TraceTree

/-! ## Trees of one form -/

theorem Node.erase_ifExpression (id : NodeId) (condition consequence : Node)
    (alternative : Option Node) :
    (ifExpression id condition consequence alternative).erase =
      ifExpression 0 condition.erase consequence.erase (alternative.map erase) := by
  cases alternative <;> rfl

mutual

/-- Trees have the same form when they differ in their numbers only. -/
theorem Node.sameForm_iff_erase (a b : Node) : a.sameForm b = true ↔ a.erase = b.erase := by
  cases a with
  | ifExpression _ c t e =>
    cases b with
    | ifExpression _ d u f =>
      cases e with
      | none => cases f <;> simp [sameForm, erase, sameForm_iff_erase c, sameForm_iff_erase t]
      | some e =>
        cases f <;> simp [sameForm, erase, sameForm_iff_erase c, sameForm_iff_erase t,
          sameForm_iff_erase e, and_assoc]
    | _ => simp [sameForm, erase, erase_ifExpression]
  | program _ xs =>
    cases b <;> simp [sameForm, erase, erase_ifExpression, sameForms_iff_erase xs]
  | letStatement _ n v =>
    cases b <;> simp [sameForm, erase, erase_ifExpression, sameForm_iff_erase n,
      sameForm_iff_erase v]
  | returnStatement _ v =>
    cases b <;> simp [sameForm, erase, erase_ifExpression, sameForm_iff_erase v]
  | expressionStatement _ e =>
    cases b <;> simp [sameForm, erase, erase_ifExpression, sameForm_iff_erase e]
  | block _ xs => cases b <;> simp [sameForm, erase, erase_ifExpression, sameForms_iff_erase xs]
  | identifier _ _ | boolean _ _ | integer _ _ =>
    cases b <;> simp [sameForm, erase, erase_ifExpression]
  | prefixExpression _ op r =>
    cases b <;> simp [sameForm, erase, erase_ifExpression, sameForm_iff_erase r]
  | infixExpression _ op l r =>
    cases b <;> simp [sameForm, erase, erase_ifExpression, sameForm_iff_erase l,
      sameForm_iff_erase r, and_assoc]
  | functionLiteral _ ps d =>
    cases b <;> simp [sameForm, erase, erase_ifExpression, sameForms_iff_erase ps,
      sameForm_iff_erase d]
  | call _ f xs =>
    cases b <;> simp [sameForm, erase, erase_ifExpression, sameForm_iff_erase f,
      sameForms_iff_erase xs]
termination_by sizeOf a

theorem Node.sameForms_iff_erase (as bs : List Node) :
    sameForms as bs = true ↔ eraseAll as = eraseAll bs := by
  match as, bs with
  | [], [] => simp [sameForms]
  | [], _ :: _ => simp [sameForms, eraseAll]
  | _ :: _, [] => simp [sameForms, eraseAll]
  | x :: xs, y :: ys =>
    simp [sameForms, eraseAll, sameForm_iff_erase x y, sameForms_iff_erase xs ys]
termination_by sizeOf as

end

/-- The node of a part has the form of another node. -/
def Part.HasForm (n : Node) (part : Part) : Prop := part.node.erase = n.erase

theorem Part.HasForm.erase_eq {n : Node} {part : Part} (h : part.HasForm n) :
    part.node.erase = n.erase :=
  h

/-- The nodes of the parts have the forms of other nodes. -/
def PartsHaveForm (nodes : List Node) (parts : List Part) : Prop :=
  Node.eraseAll (nodesOf parts) = Node.eraseAll nodes

/-- Building succeeds from every draft, with a result that has a property. -/
def Build.Gives {α : Type} (build : Build α) (property : α → Prop) : Prop :=
  ∀ draft, ∃ a draft', build draft = .ok (a, draft') ∧ property a

namespace Build

variable {α β : Type} {property : α → Prop} {n : Node}

theorem gives_pure {a : α} (h : property a) : Gives (pure a) property :=
  fun draft => ⟨a, draft, rfl, h⟩

theorem Gives.bind {after : β → Prop} {build : Build α} {rest : α → Build β}
    (h : build.Gives property) (hrest : ∀ a, property a → (rest a).Gives after) :
    Gives (build >>= rest) after := by
  intro draft
  obtain ⟨a, draft', hbuild, ha⟩ := h draft
  obtain ⟨b, draft'', hrun, hb⟩ := hrest a ha draft'
  refine ⟨b, draft'', ?_, hb⟩
  simp only [Bind.bind, StateT.bind, Except.bind, hbuild]
  exact hrun

theorem gives_alloc (span : Span) {make : NodeId → Node} (h : ∀ id, (make id).erase = n.erase) :
    Gives (alloc span make) (Part.HasForm n) :=
  fun draft => ⟨_, _, rfl, h draft.next⟩

theorem not_gives_malformed (p : Pair) : ¬ Gives (malformed p : Build α) property := by
  intro h
  obtain ⟨a, draft', hrun, -⟩ := h ⟨0, #[]⟩
  cases hrun

theorem gives_nil : Gives (pure []) (PartsHaveForm []) := gives_pure rfl

theorem gives_cons {ns : List Node} {build : Build Part} {rest : Build (List Part)}
    (h : build.Gives (Part.HasForm n)) (hrest : rest.Gives (PartsHaveForm ns)) :
    Gives (do let part ← build; let parts ← rest; pure (part :: parts))
      (PartsHaveForm (n :: ns)) := by
  refine h.bind fun part hpart => hrest.bind fun parts hparts => gives_pure ?_
  exact congrArg₂ List.cons hpart hparts

end Build

open Build

/-! ## Single pairs and lists of pairs -/

/-- The only pair builds a node of a given form. -/
def OnePair (build : Pair → Build Part) (n : Node) (pairs : List Pair) : Prop :=
  ∃ p, pairs = [p] ∧ (build p).Gives (Part.HasForm n)

/-- The pairs build nodes of given forms, one each. -/
def EachPair (build : Pair → Build Part) (nodes : List Node) (pairs : List Pair) : Prop :=
  List.Forall₂ (fun n p => (build p).Gives (Part.HasForm n)) nodes pairs

theorem eachPair_nil {build : Pair → Build Part} : EachPair build [] [] := .nil

theorem OnePair.append {build : Pair → Build Part} {n : Node} {nodes : List Node}
    {ps qs : List Pair} (hn : OnePair build n ps) (hnodes : EachPair build nodes qs) :
    EachPair build (n :: nodes) (ps ++ qs) := by
  obtain ⟨p, rfl, hp⟩ := hn
  exact .cons hp hnodes

/-! ## Formulas -/

section

variable {whole p : Pair} {pending : Pending} {more ps : List Pair} {n m : Node} {op : InfixOp}

theorem Pair.toFormula_nil {operand : Part} (h : pending.operand = some operand) :
    Pair.toFormula whole pending [] = pending.finish operand >>= Formula.build := by
  rw [Pair.toFormula, h]

theorem Pair.toFormula_prefix {op : PrefixOp} (h : pending.operand = none)
    (hp : p.rule.prefixOp? = some op) :
    Pair.toFormula whole pending (p :: more) =
      Pair.toFormula whole { pending with prefixes := (op, p.span.start) :: pending.prefixes }
        more := by
  obtain ⟨r, span, text, parts⟩ := p
  obtain ⟨left, prefixes, _⟩ := pending
  obtain rfl := h
  rw [Pair.toFormula, show r.prefixOp? = some op from hp]
  rfl

theorem Pair.toFormula_primary (h : pending.operand = none) (hp : p.rule.prefixOp? = none) :
    Pair.toFormula whole pending (p :: more) = p.toPrimary >>= fun operand =>
      Pair.toFormula whole { pending with operand := some operand } more := by
  obtain ⟨r, span, text, parts⟩ := p
  obtain ⟨left, prefixes, _⟩ := pending
  obtain rfl := h
  rw [Pair.toFormula, show r.prefixOp? = none from hp]

theorem Pair.toFormula_infix {operand : Part} (h : pending.operand = some operand)
    (hp : p.rule.infixOp? = some op) :
    Pair.toFormula whole pending (p :: more) = pending.finish operand >>= fun formula =>
      Pair.toFormula whole ⟨some (formula, op), [], none⟩ more := by
  obtain ⟨r, span, text, parts⟩ := p
  obtain ⟨left, prefixes, _⟩ := pending
  obtain rfl := h
  rw [Pair.toFormula, show r.infixOp? = some op from hp]

theorem Pair.toFormula_callArgs {operand : Part} {span : Span} {text : List Char}
    {parts : List Pair} (h : pending.operand = some operand) :
    Pair.toFormula whole pending (.mk .callArgs span text parts :: more) = (do
      let arguments ← Pair.toExpressions parts
      let result ← Build.alloc ⟨operand.span.start, span.stop⟩
        (.call · operand.node (nodesOf arguments))
      Pair.toFormula whole { pending with operand := some result } more) := by
  obtain ⟨left, prefixes, _⟩ := pending
  obtain rfl := h
  rw [Pair.toFormula]
  rfl

/-- The pairs are those of an operand: they build it and leave it as the operand begun. -/
def IsOperand (n : Node) (ps : List Pair) : Prop :=
  ∃ act : Build Part, act.Gives (Part.HasForm n) ∧
    ∀ whole pending more, pending.operand = none →
      Pair.toFormula whole pending (ps ++ more) =
        act >>= fun part => Pair.toFormula whole { pending with operand := some part } more

/-- A pair that builds an operand has no prefix operator's rule. -/
theorem prefixOp_eq_none_of_toPrimary (h : p.toPrimary.Gives (Part.HasForm n)) :
    p.rule.prefixOp? = none := by
  obtain ⟨r, span, text, parts⟩ := p
  cases r <;> first | rfl | exact absurd h (not_gives_malformed _)

theorem IsOperand.primary (h : OnePair Pair.toPrimary n ps) : IsOperand n ps := by
  obtain ⟨p, rfl, hp⟩ := h
  refine ⟨p.toPrimary, hp, fun whole pending more hpending => ?_⟩
  exact Pair.toFormula_primary hpending (prefixOp_eq_none_of_toPrimary hp)

/-- An operand followed by arguments is a call. -/
theorem IsOperand.call {id : NodeId} {arguments : List Node} {span : Span} {text : List Char}
    {parts : List Pair} (hn : IsOperand n ps)
    (harguments : (Pair.toExpressions parts).Gives (PartsHaveForm arguments)) :
    IsOperand (.call id n arguments) (ps ++ [.mk .callArgs span text parts]) := by
  obtain ⟨act, hact, hps⟩ := hn
  refine ⟨act >>= fun operand => Pair.toExpressions parts >>= fun arguments =>
    Build.alloc ⟨operand.span.start, span.stop⟩ (.call · operand.node (nodesOf arguments)),
    hact.bind fun operand hoperand => harguments.bind fun parts hparts =>
      gives_alloc _ fun id => ?_,
    fun whole pending more hpending => ?_⟩
  · exact congrArg₂ (Node.call 0) hoperand hparts
  · rw [List.append_assoc, hps whole pending _ hpending, bind_assoc]
    refine bind_congr fun operand => ?_
    rw [bind_assoc]
    exact Pair.toFormula_callArgs rfl

/-- The pairs are those of an expression: they build it. -/
def IsExpression (n : Node) (ps : List Pair) : Prop :=
  ∀ whole, (Pair.toFormula whole .empty ps).Gives (Part.HasForm n)

/-- An operand is an expression by itself. -/
theorem IsOperand.isExpression (hn : IsOperand n ps) : IsExpression n ps := by
  intro whole
  obtain ⟨act, hact, hps⟩ := hn
  rw [← List.append_nil ps, hps whole .empty [] rfl]
  refine hact.bind fun part hpart => ?_
  rw [Pair.toFormula_nil rfl]
  exact gives_pure hpart

/-- A prefix operator and an operand. -/
theorem IsOperand.isExpression_prefix {op : PrefixOp} (hn : IsOperand n ps)
    (hp : p.rule.prefixOp? = some op) (id : NodeId) :
    IsExpression (.prefixExpression id op n) (p :: ps) := by
  intro whole
  obtain ⟨act, hact, hps⟩ := hn
  rw [← List.append_nil ps, Pair.toFormula_prefix rfl hp, hps whole _ [] rfl]
  refine hact.bind fun part hpart => ?_
  rw [Pair.toFormula_nil rfl]
  change (Build.alloc _ (.prefixExpression · op part.node)).Gives _
  exact gives_alloc _ fun _ => congrArg (Node.prefixExpression 0 op) hpart

/-- Two operands with an operator between them. -/
theorem IsOperand.isExpression_infix {qs : List Pair} (hn : IsOperand n ps) (hm : IsOperand m qs)
    (hp : p.rule.infixOp? = some op) (id : NodeId) :
    IsExpression (.infixExpression id op n m) (ps ++ p :: qs) := by
  intro whole
  obtain ⟨left, hleft, hps⟩ := hn
  obtain ⟨right, hright, hqs⟩ := hm
  rw [hps whole .empty _ rfl]
  refine hleft.bind fun l hl => ?_
  rw [Pair.toFormula_infix rfl hp, ← List.append_nil qs]
  have hfinish : Gives (pure (Formula.operand l)) (· = Formula.operand l) := gives_pure rfl
  refine hfinish.bind fun formula hformula => ?_
  obtain rfl := hformula
  rw [hqs whole _ [] rfl]
  refine hright.bind fun r hr => ?_
  rw [Pair.toFormula_nil rfl]
  change (Build.alloc _ (.infixExpression · op l.node r.node)).Gives _
  exact gives_alloc _ fun _ => congrArg₂ (Node.infixExpression 0 op) hl hr

/-! ## Lists -/

theorem Pair.toStatements_cons {p : Pair} (h : p.rule ≠ .endOfInput) (more : List Pair) :
    Pair.toStatements (p :: more) = (do
      let statement ← p.toStatement
      let others ← Pair.toStatements more
      pure (statement :: others)) := by
  obtain ⟨r, span, text, parts⟩ := p
  rw [Pair.toStatements]
  rintro span text parts ⟨⟩
  exact h rfl

/-- The pair of the end of a text holds no statement. -/
theorem Pair.toStatements_end {p : Pair} (h : p.rule = .endOfInput) (more : List Pair) :
    Pair.toStatements (p :: more) = Pair.toStatements more := by
  obtain ⟨r, span, text, parts⟩ := p
  obtain rfl : r = .endOfInput := h
  rw [Pair.toStatements]

/-- The form of each argument is built from its pair. -/
theorem EachPair.gives_toExpressions {nodes : List Node} (h : EachPair Pair.toExpression nodes ps) :
    (Pair.toExpressions ps).Gives (PartsHaveForm nodes) := by
  induction h with
  | nil =>
    rw [Pair.toExpressions]
    exact gives_nil
  | cons hn _ ih =>
    rw [Pair.toExpressions]
    exact gives_cons hn ih

theorem EachPair.gives_toIdentifiers {nodes : List Node}
    (h : EachPair Pair.toIdentifier nodes ps) :
    Gives (ps.mapM Pair.toIdentifier) (PartsHaveForm nodes) := by
  induction h with
  | nil =>
    rw [List.mapM_nil]
    exact gives_nil
  | cons hn _ ih =>
    rw [List.mapM_cons]
    exact gives_cons hn ih

theorem gives_toStatements_nil : (Pair.toStatements []).Gives (PartsHaveForm []) := by
  rw [Pair.toStatements]
  exact gives_nil

/-- Statements are built from their pairs, and the end of the text adds nothing. -/
theorem EachPair.gives_toStatements {nodes : List Node} (h : EachPair Pair.toStatement nodes ps)
    {last : List Pair} (hlast : (Pair.toStatements last).Gives (PartsHaveForm [])) :
    (Pair.toStatements (ps ++ last)).Gives (PartsHaveForm nodes) := by
  induction h with
  | nil => exact hlast
  | @cons n p nodes ps hn _ ih =>
    obtain ⟨r, span, text, parts⟩ := p
    rw [List.cons_append, Pair.toStatements]
    · exact gives_cons hn ih
    · rintro span text parts ⟨⟩
      exact not_gives_malformed _ hn

end

end TraceTree

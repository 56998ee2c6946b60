import TraceTree.Proofs.Grammar.Similarity
import TraceTree.Proofs.Syntax.Forms

set_option autoImplicit false

/-! # Numbers and spans decide nothing

The numbers that nodes get are only handed out, and the spans of pairs are only written down: what is
built from pairs has the same form as what is built from pairs that say the same, whatever number is
the next free one, and is built from any number on if it is from one (`Build.Carries`). -/

namespace TraceTree

/-- The nodes of two parts have the same form. -/
def Part.Alike (part other : Part) : Prop := other.node.erase = part.node.erase

/-- The nodes of parts have the same forms, one by one. -/
def PartsAlike (parts others : List Part) : Prop := List.Forall₂ Part.Alike parts others

/-- Formulas of the same shape whose operands have the same forms. -/
inductive Formula.Alike : Formula Part → Formula Part → Prop where
  | operand {part other : Part} (h : part.Alike other) : Alike (.operand part) (.operand other)
  | binary {op : InfixOp} {left right left' right' : Formula Part} (hleft : Alike left left')
      (hright : Alike right right') : Alike (.binary op left right) (.binary op left' right')

/-- The operators in front of an operand are the same. -/
def SameOperators (ops others : List (PrefixOp × Nat)) : Prop :=
  List.Forall₂ (fun op other => other.1 = op.1) ops others

/-- What is pending has the same form. -/
structure Pending.Alike (pending other : Pending) : Prop where
  left : Option.Rel (fun x y => x.1.Alike y.1 ∧ x.2 = y.2) pending.left other.left
  operators : SameOperators pending.prefixes other.prefixes
  operand : Option.Rel Part.Alike pending.operand other.operand

/-- If something is built from some draft, then what another building makes of every draft is
alike. -/
def Build.Carries {α β : Type} (alike : α → β → Prop) (build : Build α) (other : Build β) : Prop :=
  ∀ draft a draft', build draft = .ok (a, draft') → other.Gives (alike a)

namespace Build

variable {α β γ δ : Type} {alike : α → β → Prop} {alike' : γ → δ → Prop}

theorem carries_pure {a : α} {b : β} (h : alike a b) : Carries alike (pure a) (pure b) := by
  intro draft a' draft' hrun
  obtain ⟨rfl, -⟩ := Prod.mk.inj (Except.ok.inj hrun)
  exact gives_pure h

theorem carries_throw (e : ParseError) (other : Build β) :
    Carries alike (throw e : Build α) other :=
  fun _ _ _ hrun => nomatch hrun

theorem carries_malformed (p : Pair) (other : Build β) :
    Carries alike (malformed p : Build α) other := carries_throw _ other

theorem Carries.bind {build : Build α} {other : Build β} {rest : α → Build γ}
    {rest' : β → Build δ} (h : Carries alike build other)
    (hrest : ∀ a b, alike a b → Carries alike' (rest a) (rest' b)) :
    Carries alike' (build >>= rest) (other >>= rest') := by
  intro draft c draft'' hrun
  obtain ⟨a, draft', hbuild, hrun'⟩ := of_bind hrun
  exact (h draft a draft' hbuild).bind fun b hb => hrest a b hb draft' c draft'' hrun'

theorem carries_alloc (span span' : Span) {make make' : NodeId → Node}
    (h : ∀ id id', (make' id').erase = (make id).erase) :
    Carries Part.Alike (alloc span make) (alloc span' make') := by
  intro draft part draft' hrun
  obtain ⟨rfl, -⟩ := Prod.mk.inj (Except.ok.inj hrun)
  exact gives_alloc (n := make draft.next) span' fun id => h draft.next id

theorem carries_nil : Carries PartsAlike (pure []) (pure []) := carries_pure .nil

theorem Carries.cons {build other : Build Part} {rest rest' : Build (List Part)}
    (h : Carries Part.Alike build other) (hrest : Carries PartsAlike rest rest') :
    Carries PartsAlike (do let part ← build; let parts ← rest; pure (part :: parts))
      (do let part ← other; let parts ← rest'; pure (part :: parts)) :=
  h.bind fun _ _ hpart => hrest.bind fun _ _ hparts => carries_pure (.cons hpart hparts)

end Build

open Build

/-- The lists of the nodes of parts that are alike have the same forms. -/
theorem PartsAlike.eraseAll_eq {parts others : List Part} (h : PartsAlike parts others) :
    Node.eraseAll (nodesOf others) = Node.eraseAll (nodesOf parts) := by
  induction h with
  | nil => rfl
  | cons hpart _ ih => exact congrArg₂ List.cons hpart ih

/-! ## Formulas -/

section

variable {f g : Formula Part} {part other : Part} {pending pending' : Pending}

theorem Formula.Alike.extend (h : f.Alike g) (op : InfixOp) (hpart : part.Alike other) :
    (f.extend op part).Alike (g.extend op other) := by
  induction h with
  | operand hoperand => exact .binary (.operand hoperand) (.operand hpart)
  | binary hleft hright _ ihright =>
    rw [Formula.extend, Formula.extend]
    split
    · exact .binary hleft ihright
    · exact .binary (.binary hleft hright) (.operand hpart)

theorem carries_applyPrefixes {ops ops' : List (PrefixOp × Nat)} (hops : SameOperators ops ops')
    (hpart : part.Alike other) :
    Carries Part.Alike (applyPrefixes ops part) (applyPrefixes ops' other) := by
  induction hops generalizing part other with
  | nil => exact carries_pure hpart
  | cons hop _ ih =>
    refine Carries.bind (carries_alloc _ _ fun _ _ => ?_) fun _ _ h => ih h
    exact congrArg₂ (Node.prefixExpression 0) hop hpart

theorem Formula.Alike.carries_build (h : f.Alike g) : Carries Part.Alike f.build g.build := by
  induction h with
  | operand hoperand => exact carries_pure hoperand
  | @binary op _ _ _ _ _ _ ihleft ihright =>
    refine ihleft.bind fun _ _ hleft => ihright.bind fun _ _ hright => ?_
    exact carries_alloc _ _ fun _ _ => congrArg₂ (Node.infixExpression 0 op) hleft hright

theorem Pending.Alike.carries_finish (h : pending.Alike pending') (hpart : part.Alike other) :
    Carries Formula.Alike (pending.finish part) (pending'.finish other) := by
  obtain ⟨left, prefixes, operand⟩ := pending
  obtain ⟨left', prefixes', operand'⟩ := pending'
  obtain ⟨hleft, hoperators, -⟩ := h
  refine (carries_applyPrefixes hoperators hpart).bind fun _ _ hwhole => ?_
  cases hleft with
  | none => exact carries_pure (.operand hwhole)
  | @some x y hxy =>
    obtain ⟨formula, op⟩ := x
    obtain ⟨formula', op'⟩ := y
    obtain ⟨hformula, rfl⟩ := hxy
    exact carries_pure (hformula.extend op hwhole)

theorem Pending.alike_empty : Pending.empty.Alike .empty := ⟨.none, .nil, .none⟩

end

/-! ## Building from pairs -/

theorem Pair.carries_toIdentifier {p p' : Pair} (h : p'.text = p.text) :
    Carries Part.Alike p.toIdentifier p'.toIdentifier :=
  carries_alloc _ _ fun _ _ => congrArg (fun text => Node.identifier 0 (String.ofList text)) h

theorem carries_toIdentifiers {names names' : List Pair}
    (h : List.Forall₂ (fun name name' => name'.text = name.text) names names') :
    Carries PartsAlike (names.mapM Pair.toIdentifier) (names'.mapM Pair.toIdentifier) := by
  induction h with
  | nil =>
    rw [List.mapM_nil]
    exact carries_nil
  | cons hname _ ih =>
    rw [List.mapM_cons, List.mapM_cons]
    exact (Pair.carries_toIdentifier hname).cons ih

mutual

theorem Pair.Similar.carries_toStatement {p p' : Pair} (h : p.Similar p') :
    Carries Part.Alike p.toStatement p'.toStatement := by
  generalize hother : p'.toStatement = other
  unfold Pair.toStatement
  split
  · next span text keyword name value =>
    obtain ⟨span', text', inner', rfl, hinner⟩ := h.exists_mk
    obtain ⟨keyword', _, -, hmore₁, rfl⟩ := List.forall₂_cons_left_iff.mp hinner
    obtain ⟨name', _, -, hmore₂, rfl⟩ := List.forall₂_cons_left_iff.mp hmore₁
    obtain ⟨value', _, hvalue, hmore₃, rfl⟩ := List.forall₂_cons_left_iff.mp hmore₂
    obtain rfl := List.forall₂_nil_left_iff.mp hmore₃
    rw [← hother, Pair.toStatement]
    refine (Pair.carries_toIdentifier h.name_eq).bind fun _ _ htarget => ?_
    refine hvalue.carries_toExpression.bind fun _ _ hbound => ?_
    exact carries_alloc _ _ fun _ _ => congrArg₂ (Node.letStatement 0) htarget hbound
  · next span text keyword value =>
    obtain ⟨span', text', inner', rfl, hinner⟩ := h.exists_mk
    obtain ⟨keyword', _, -, hmore₁, rfl⟩ := List.forall₂_cons_left_iff.mp hinner
    obtain ⟨value', _, hvalue, hmore₂, rfl⟩ := List.forall₂_cons_left_iff.mp hmore₁
    obtain rfl := List.forall₂_nil_left_iff.mp hmore₂
    rw [← hother, Pair.toStatement]
    refine hvalue.carries_toExpression.bind fun _ _ hresult => ?_
    exact carries_alloc _ _ fun _ _ => congrArg (Node.returnStatement 0) hresult
  · next span text expression =>
    obtain ⟨span', text', inner', rfl, hinner⟩ := h.exists_mk
    obtain ⟨expression', _, hexpression, hmore₁, rfl⟩ := List.forall₂_cons_left_iff.mp hinner
    obtain rfl := List.forall₂_nil_left_iff.mp hmore₁
    rw [← hother, Pair.toStatement]
    refine hexpression.carries_toExpression.bind fun _ _ hinner => ?_
    exact carries_alloc _ _ fun _ _ => congrArg (Node.expressionStatement 0) hinner
  · exact carries_malformed _ _
termination_by sizeOf p

theorem PairsSimilar.carries_toStatements {parts parts' : List Pair} (h : PairsSimilar parts parts') :
    Carries PartsAlike (Pair.toStatements parts) (Pair.toStatements parts') := by
  cases h with
  | nil =>
    rw [Pair.toStatements]
    exact carries_nil
  | @cons p p' more more' hp hmore =>
    by_cases hend : p.rule = .endOfInput
    · rw [Pair.toStatements_end hend, Pair.toStatements_end (hp.rule_eq.trans hend)]
      exact PairsSimilar.carries_toStatements hmore
    · rw [Pair.toStatements_cons hend, Pair.toStatements_cons (hp.rule_eq ▸ hend)]
      exact hp.carries_toStatement.cons (PairsSimilar.carries_toStatements hmore)
termination_by sizeOf parts

theorem Pair.Similar.carries_toBlock {p p' : Pair} (h : p.Similar p') :
    Carries Part.Alike p.toBlock p'.toBlock := by
  generalize hother : p'.toBlock = other
  unfold Pair.toBlock
  split
  · next span text parts =>
    obtain ⟨span', text', parts', rfl, hparts⟩ := h.exists_mk
    rw [← hother, Pair.toBlock]
    refine (PairsSimilar.carries_toStatements hparts).bind fun _ _ hstatements => ?_
    exact carries_alloc _ _ fun _ _ => congrArg (Node.block 0) hstatements.eraseAll_eq
  · exact carries_malformed _ _
termination_by sizeOf p

theorem Pair.Similar.carries_toExpression {p p' : Pair} (h : p.Similar p') :
    Carries Part.Alike p.toExpression p'.toExpression := by
  generalize hother : p'.toExpression = other
  unfold Pair.toExpression
  split
  · next span text parts =>
    obtain ⟨span', text', parts', rfl, hparts⟩ := h.exists_mk
    rw [← hother, Pair.toExpression]
    exact PairsSimilar.carries_toFormula _ _ Pending.alike_empty hparts
  · exact carries_malformed _ _
termination_by sizeOf p

theorem PairsSimilar.carries_toFormula (whole whole' : Pair) {pending pending' : Pending}
    (hpending : pending.Alike pending') {parts parts' : List Pair}
    (h : PairsSimilar parts parts') :
    Carries Part.Alike (Pair.toFormula whole pending parts)
      (Pair.toFormula whole' pending' parts') := by
  obtain ⟨left, prefixes, operand⟩ := pending
  obtain ⟨left', prefixes', operand'⟩ := pending'
  obtain ⟨hleft, hoperators, hoperand⟩ := hpending
  match parts, parts', h with
  | [], [], .nil =>
    cases hoperand with
    | none =>
      rw [Pair.toFormula]
      exact carries_malformed _ _
    | some hpart =>
      rw [Pair.toFormula_nil rfl, Pair.toFormula_nil rfl]
      refine (Pending.Alike.carries_finish ⟨hleft, hoperators, .some hpart⟩ hpart).bind
        fun _ _ h => ?_
      exact h.carries_build
  | .mk r span text inner :: more, p' :: more', .cons hp hmore =>
    obtain ⟨span', text', inner', rfl, hinner⟩ := hp.exists_mk
    cases hoperand with
    | none =>
      cases hprefix : (Pair.mk r span text inner).rule.prefixOp? with
      | some op =>
        -- an operator before the operand
        have hprefix' : (Pair.mk r span' text' inner').rule.prefixOp? = some op := hprefix
        rw [Pair.toFormula_prefix rfl hprefix, Pair.toFormula_prefix rfl hprefix']
        refine PairsSimilar.carries_toFormula whole whole' ?_ hmore
        exact ⟨hleft, .cons rfl hoperators, .none⟩
      | none =>
        -- the operand
        have hprefix' : (Pair.mk r span' text' inner').rule.prefixOp? = none := hprefix
        rw [Pair.toFormula_primary rfl hprefix, Pair.toFormula_primary rfl hprefix']
        refine hp.carries_toPrimary.bind fun _ _ h => ?_
        refine PairsSimilar.carries_toFormula whole whole' ?_ hmore
        exact ⟨hleft, hoperators, .some h⟩
    | some hpart =>
      cases hinfix : (Pair.mk r span text inner).rule.infixOp? with
      | some op =>
        -- an operator after the operand
        have hinfix' : (Pair.mk r span' text' inner').rule.infixOp? = some op := hinfix
        rw [Pair.toFormula_infix rfl hinfix, Pair.toFormula_infix rfl hinfix']
        refine (Pending.Alike.carries_finish ⟨hleft, hoperators, .some hpart⟩ hpart).bind
          fun _ _ h => ?_
        refine PairsSimilar.carries_toFormula whole whole' ?_ hmore
        exact ⟨.some ⟨h, rfl⟩, .nil, .none⟩
      | none =>
        by_cases hr : r = .callArgs
        · -- the arguments of a call
          subst hr
          rw [Pair.toFormula_callArgs rfl, Pair.toFormula_callArgs rfl]
          refine (PairsSimilar.carries_toExpressions hinner).bind fun _ _ harguments => ?_
          refine Carries.bind (carries_alloc _ _ fun _ _ => ?_) fun _ _ hresult => ?_
          · exact congrArg₂ (Node.call 0) hpart harguments.eraseAll_eq
          · refine PairsSimilar.carries_toFormula whole whole' ?_ hmore
            exact ⟨hleft, hoperators, .some hresult⟩
        · rw [Pair.toFormula, show r.infixOp? = none from hinfix]
          dsimp only
          rw [if_neg hr]
          exact carries_malformed _ _
-- what is inside a pair or behind it in a list is smaller
termination_by sizeOf parts
decreasing_by
  all_goals
    subst_vars
    simp only [Pair.mk.sizeOf_spec, List.cons.sizeOf_spec]
    omega

theorem PairsSimilar.carries_toExpressions {parts parts' : List Pair} (h : PairsSimilar parts parts') :
    Carries PartsAlike (Pair.toExpressions parts) (Pair.toExpressions parts') := by
  cases h with
  | nil =>
    rw [Pair.toExpressions]
    exact carries_nil
  | @cons p p' more more' hp hmore =>
    rw [Pair.toExpressions, Pair.toExpressions]
    exact hp.carries_toExpression.cons (PairsSimilar.carries_toExpressions hmore)
termination_by sizeOf parts

theorem Pair.Similar.carries_toPrimary {p p' : Pair} (h : p.Similar p') :
    Carries Part.Alike p.toPrimary p'.toPrimary := by
  generalize hother : p'.toPrimary = other
  unfold Pair.toPrimary
  split
  · next span text parts =>
    obtain ⟨span', text', parts', rfl, hparts⟩ := h.exists_mk
    rw [← hother, Pair.toPrimary]
    exact PairsSimilar.carries_toFormula _ _ Pending.alike_empty hparts
  · next span text parts =>
    obtain ⟨span', text', parts', rfl, -⟩ := h.exists_mk
    obtain rfl : text' = text := h.text_eq rfl
    rw [← hother, Pair.toPrimary]
    dsimp only
    split
    · exact carries_alloc _ _ fun _ _ => rfl
    · exact carries_throw _ _
  · next span text parts =>
    obtain ⟨span', text', parts', rfl, -⟩ := h.exists_mk
    obtain rfl : text' = text := h.text_eq rfl
    rw [← hother, Pair.toPrimary]
    exact carries_alloc _ _ fun _ _ => rfl
  · next span text parts =>
    obtain ⟨span', text', parts', rfl, -⟩ := h.exists_mk
    obtain rfl : text' = text := h.text_eq rfl
    rw [← hother, Pair.toPrimary]
    exact carries_alloc _ _ fun _ _ => rfl
  · next span text keyword condition consequence =>
    obtain ⟨span', text', inner', rfl, hinner⟩ := h.exists_mk
    obtain ⟨keyword', _, -, hmore₁, rfl⟩ := List.forall₂_cons_left_iff.mp hinner
    obtain ⟨condition', _, hcondition, hmore₂, rfl⟩ := List.forall₂_cons_left_iff.mp hmore₁
    obtain ⟨consequence', _, hconsequence, hmore₃, rfl⟩ := List.forall₂_cons_left_iff.mp hmore₂
    obtain rfl := List.forall₂_nil_left_iff.mp hmore₃
    rw [← hother, Pair.toPrimary]
    refine hcondition.carries_toExpression.bind fun _ _ htest => ?_
    refine hconsequence.carries_toBlock.bind fun _ _ hchosen => ?_
    exact carries_alloc _ _ fun _ _ =>
      congrArg₂ (Node.ifExpression 0 · · none) htest hchosen
  · next span text keyword condition consequence otherwise alternative =>
    obtain ⟨span', text', inner', rfl, hinner⟩ := h.exists_mk
    obtain ⟨keyword', _, -, hmore₁, rfl⟩ := List.forall₂_cons_left_iff.mp hinner
    obtain ⟨condition', _, hcondition, hmore₂, rfl⟩ := List.forall₂_cons_left_iff.mp hmore₁
    obtain ⟨consequence', _, hconsequence, hmore₃, rfl⟩ := List.forall₂_cons_left_iff.mp hmore₂
    obtain ⟨otherwise', _, -, hmore₄, rfl⟩ := List.forall₂_cons_left_iff.mp hmore₃
    obtain ⟨alternative', _, halternative, hmore₅, rfl⟩ := List.forall₂_cons_left_iff.mp hmore₄
    obtain rfl := List.forall₂_nil_left_iff.mp hmore₅
    rw [← hother, Pair.toPrimary]
    refine hcondition.carries_toExpression.bind fun _ _ htest => ?_
    refine hconsequence.carries_toBlock.bind fun _ _ hchosen => ?_
    refine halternative.carries_toBlock.bind fun _ _ hchosen' => ?_
    exact carries_alloc _ _ fun _ _ => by
      simp only [Node.erase]
      rw [htest, hchosen, hchosen']
  · next span text keyword r nspan ntext names body =>
    obtain ⟨span', text', inner', rfl, hinner⟩ := h.exists_mk
    obtain ⟨keyword', _, -, hmore₁, rfl⟩ := List.forall₂_cons_left_iff.mp hinner
    obtain ⟨⟨r', nspan', ntext', names'⟩, _, -, hmore₂, rfl⟩ := List.forall₂_cons_left_iff.mp hmore₁
    obtain ⟨body', _, hbody, hmore₃, rfl⟩ := List.forall₂_cons_left_iff.mp hmore₂
    obtain rfl := List.forall₂_nil_left_iff.mp hmore₃
    rw [← hother, Pair.toPrimary]
    refine (carries_toIdentifiers h.names_eq).bind fun _ _ hparameters => ?_
    refine hbody.carries_toBlock.bind fun _ _ hcode => ?_
    exact carries_alloc _ _ fun _ _ =>
      congrArg₂ (Node.functionLiteral 0) hparameters.eraseAll_eq hcode
  · exact carries_malformed _ _
termination_by sizeOf p
decreasing_by
  all_goals
    subst_vars
    simp only [Pair.mk.sizeOf_spec, List.cons.sizeOf_spec]
    omega

end

theorem Pair.carries_toStatement (p : Pair) : Carries Part.Alike p.toStatement p.toStatement :=
  (Similar.refl p).carries_toStatement

theorem Pair.carries_toExpression (p : Pair) : Carries Part.Alike p.toExpression p.toExpression :=
  (Similar.refl p).carries_toExpression

end TraceTree

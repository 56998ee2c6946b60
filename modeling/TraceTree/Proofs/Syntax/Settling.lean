import TraceTree.Proofs.Syntax.Building
import TraceTree.Proofs.Syntax.Levels

set_option autoImplicit false

/-! # What building from a match comes to

Each builder is followed along its own recursion on pairs that are well made and lie in a text: the
grammar leaves it only the branches that make something. The order in which it passes the pairs is
the order of the text, so the integer it fails on is the first one out of range. -/

namespace TraceTree

/-! ## Rules of operators and operands -/

theorem Rule.prefixOp_of_mem {r : Rule} (h : r ∈ prefixRules) :
    r ∈ tokenRules ∧ r ≠ .integer ∧ ∃ op, r.prefixOp? = some op := by
  simp only [prefixRules, List.mem_cons, List.not_mem_nil, or_false] at h
  rcases h with rfl | rfl <;> exact ⟨by decide, by decide, _, rfl⟩

theorem Rule.infixOp_of_mem {r : Rule} (h : r ∈ infixRules) :
    r ∈ tokenRules ∧ r ≠ .integer ∧ ∃ op, r.infixOp? = some op := by
  simp only [infixRules, List.mem_cons, List.not_mem_nil, or_false] at h
  rcases h with rfl | rfl | rfl | rfl | rfl | rfl | rfl | rfl <;>
    exact ⟨by decide, by decide, _, rfl⟩

theorem Rule.prefixOp_of_mem_primary {r : Rule} (h : r ∈ primaryRules) : r.prefixOp? = none := by
  simp only [primaryRules, List.mem_cons, List.not_mem_nil, or_false] at h
  rcases h with rfl | rfl | rfl | rfl | rfl | rfl <;> rfl

theorem Rule.not_mem_prefixRules {r : Rule} (h : r ∈ primaryRules) : r ∉ prefixRules := by
  revert r
  decide

theorem Rule.ne_callArgs {r : Rule} (h : r ∈ infixRules) : r ≠ .callArgs := by
  revert r
  decide

theorem Rule.mem_prefixRules {r : Rule} {op : PrefixOp} (h : r.prefixOp? = some op) :
    r ∈ prefixRules := by
  cases r <;> first | decide | cases h

theorem length_of_rulesOf {pairs : List Pair} {rs : List Rule} (h : rulesOf pairs = rs) :
    pairs.length = rs.length := by
  rw [← h]
  exact (List.length_map _).symm

theorem Pair.statement_cases {p : Pair} (hrule : p.rule ∈ statementRules) (h : p.HasParts) :
    (∃ span text keyword name value, p = .mk .letStatement span text [keyword, name, value]) ∨
    (∃ span text keyword value, p = .mk .returnStatement span text [keyword, value]) ∨
    (∃ span text expression, p = .mk .expressionStatement span text [expression]) := by
  obtain ⟨r, span, text, inner⟩ := p
  simp only [statementRules, List.mem_cons, List.not_mem_nil, or_false] at hrule
  rcases hrule with hr | hr | hr <;> obtain rfl : r = _ := hr
  · obtain ⟨k, n, v, rfl⟩ := List.length_eq_three.mp (length_of_rulesOf (mem_parts_letStatement h))
    exact .inl ⟨span, text, k, n, v, rfl⟩
  · obtain ⟨k, v, rfl⟩ := List.length_eq_two.mp (length_of_rulesOf (mem_parts_returnStatement h))
    exact .inr (.inl ⟨span, text, k, v, rfl⟩)
  · obtain ⟨e, rfl⟩ := List.length_eq_one_iff.mp
      (length_of_rulesOf (mem_parts_expressionStatement h))
    exact .inr (.inr ⟨span, text, e, rfl⟩)

theorem Pair.primary_cases {p : Pair} (hrule : p.rule ∈ primaryRules) (h : p.HasParts) :
    p.rule ∈ [.expression, .integer, .boolean, .identifier] ∨
    (∃ span text keyword condition consequence,
      p = .mk .ifExpression span text [keyword, condition, consequence]) ∨
    (∃ span text keyword condition consequence keyword' alternative,
      p = .mk .ifExpression span text [keyword, condition, consequence, keyword', alternative]) ∨
    (∃ span text keyword r nspan ntext names body,
      p = .mk .functionLiteral span text [keyword, .mk r nspan ntext names, body]) := by
  obtain ⟨r, span, text, inner⟩ := p
  simp only [primaryRules, List.mem_cons, List.not_mem_nil, or_false] at hrule
  rcases hrule with hr | hr | hr | hr | hr | hr <;> obtain rfl : r = _ := hr
  · exact .inl (show Rule.integer ∈ _ by decide)
  · exact .inl (show Rule.boolean ∈ _ by decide)
  · rcases mem_parts_ifExpression h with hw | hw
    · obtain ⟨k, c, t, rfl⟩ := List.length_eq_three.mp (length_of_rulesOf hw)
      exact .inr (.inl ⟨span, text, k, c, t, rfl⟩)
    · have hlength : inner.length = 5 := length_of_rulesOf hw
      obtain ⟨k, _, rfl⟩ := List.exists_cons_of_length_eq_add_one hlength
      obtain ⟨c, _, rfl⟩ := List.exists_cons_of_length_eq_add_one (Nat.succ.inj hlength)
      obtain ⟨t, k', e, rfl⟩ := List.length_eq_three.mp (Nat.succ.inj (Nat.succ.inj hlength))
      exact .inr (.inr (.inl ⟨span, text, k, c, t, k', e, rfl⟩))
  · obtain ⟨k, ⟨r, nspan, ntext, names⟩, b, rfl⟩ :=
      List.length_eq_three.mp (length_of_rulesOf (mem_parts_functionLiteral h))
    exact .inr (.inr (.inr ⟨span, text, k, r, nspan, ntext, names, b, rfl⟩))
  · exact .inl (show Rule.identifier ∈ _ by decide)
  · exact .inl (show Rule.expression ∈ _ by decide)

/-! ## Pairs as the grammar makes them -/

section

variable {source : String} {first : NodeId} {draft draft' : Draft} {lo hi : Nat} {p : Pair}

/-- A pair lies in a text and is well made, with all pairs inside it. -/
structure Pair.Sound (source : String) (p : Pair) : Prop where
  inText : p.InText source
  wellMade : p.Everywhere Pair.WellMade

/-- Pairs that are well made lie one after the other in a text, between two offsets. -/
structure Pair.Row (source : String) (lo : Nat) (pairs : List Pair) (hi : Nat) : Prop where
  between : Pair.Between source lo pairs hi
  wellMade : ∀ p ∈ pairs, p.Everywhere Pair.WellMade

theorem Pair.InText.le (h : p.InText source) : p.span.start ≤ p.span.stop :=
  Nat.le_trans (Nat.le_add_right ..) h.least

theorem Pair.Row.cons {more : List Pair} (h : Row source lo (p :: more) hi) :
    p.Sound source ∧ lo ≤ p.span.start ∧ Row source p.span.stop more hi := by
  obtain ⟨hp, hlo, hmore⟩ := h.between.cons
  obtain ⟨hmadep, hmademore⟩ := List.forall_mem_cons.mp h.wellMade
  exact ⟨⟨hp, hmadep⟩, hlo, hmore, hmademore⟩

/-- Without the first pair. -/
theorem Pair.Row.tail {more : List Pair} (h : Row source lo (p :: more) hi) :
    Row source lo more hi := by
  obtain ⟨hp, hlo, hmore⟩ := h.cons
  exact ⟨hmore.between.mono (Nat.le_trans hlo hp.inText.le), hmore.wellMade⟩

theorem Pair.Sound.parts (h : p.Sound source) : rulesOf p.children ∈ p.rule.parts :=
  h.wellMade.here.parts

theorem Pair.Sound.row (h : p.Sound source) :
    Row source p.span.start p.children p.span.stop := by
  refine ⟨h.inText.inner, ?_⟩
  obtain ⟨r, span, text, inner⟩ := p
  exact h.wellMade.inside

/-- Building from the parts of a pair that is no integer. -/
theorem Build.Settles.whole {α : Type} {property : α → Draft → Prop} {build : Build α}
    (h : build.Settles draft p.children property) (hp : p.rule ≠ .integer) :
    build.Settles draft [p] property :=
  h.congr (firstOversized?_single hp)

/-- A token that is no integer adds nothing. -/
theorem Build.Settles.behind {α : Type} {property : α → Draft → Prop} {build : Build α}
    {more : List Pair} {r : Rule} (h : build.Settles draft more property) (hp : p.Sound source)
    (hr : p.rule = r) (htoken : r ∈ tokenRules) (hno : r ≠ .integer) :
    build.Settles draft (p :: more) property := by
  subst hr
  exact h.congr (firstOversized?_token htoken hp.parts hno more)

/-! ## Single nodes and lists -/

/-- A node of the span of a pair. -/
theorem PartsMade.settles_node {parts : List Part} {make : NodeId → Node}
    (h : PartsMade source first draft p.span.start p.span.stop parts draft') (hp : p.Sound source)
    (hleast : p.rule.least = 1) (hid : ∀ id, (make id).id = id)
    (hchildren : ∀ id, (make id).children = nodesOf parts)
    (hspells : ∀ id, (make id).Spells (String.ofList p.text)) :
    (Build.alloc p.span make).Settles draft' []
      (Part.Made source first draft p.span.start p.span.stop) := by
  have hlength := hp.inText.least
  rw [hleast] at hlength
  refine h.settles_alloc hid hchildren hp.inText.start_valid hp.inText.stop_valid hlength
    fun id => ?_
  rw [hp.inText.slice_eq]
  exact hspells id

/-- A node without children in the place of a token. -/
theorem settles_leaf (hdraft : draft.Counts first) (hp : p.Sound source)
    (hleast : p.rule.least = 1) {make : NodeId → Node} (hid : ∀ id, (make id).id = id)
    (hchildren : ∀ id, (make id).children = [])
    (hspells : ∀ id, (make id).Spells (String.ofList p.text)) :
    (Build.alloc p.span make).Settles draft []
      (Part.Made source first draft p.span.start p.span.stop) := by
  have hnone : PartsMade source first draft p.span.start p.span.stop [] draft :=
    partsMade_nil hdraft hp.inText.le
  exact hnone.settles_node hp hleast hid hchildren hspells

theorem Pair.settles_toIdentifier (hdraft : draft.Counts first) (hp : p.Sound source)
    (hrule : p.rule = .identifier) :
    p.toIdentifier.Settles draft [p]
      (Part.Made source first draft p.span.start p.span.stop) := by
  refine Build.Settles.behind ?_ hp hrule (by decide) nofun
  exact settles_leaf hdraft hp (by rw [hrule]; rfl) (fun _ => rfl) (fun _ => rfl) fun _ => rfl

/-- An integer is made if it is in range, and is what building fails on otherwise. -/
theorem settles_integer (hdraft : draft.Counts first) {span : Span} {text : List Char}
    {inner : List Pair} (hp : (Pair.mk .integer span text inner).Sound source)
    (hspelled : text ≠ [] ∧ ∀ x ∈ text, isDigit x = true) :
    Build.Settles (if decimalValue text ≤ maxInteger then
        Build.alloc span (.integer · (Int64.ofNat (decimalValue text)))
      else throw ⟨.integerTooLarge (String.ofList text), span⟩) draft [.mk .integer span text inner]
      (Part.Made source first draft span.start span.stop) := by
  have hnil : inner = [] := 
    List.map_eq_nil_iff.mp (mem_parts_token (show Rule.integer ∈ _ by decide) hp.parts)
  subst hnil
  split
  · next hvalue =>
    have hquiet : firstOversized? [.mk .integer span text []] = none :=
      (firstOversized?_cons _ _).trans (if_neg fun h => Nat.not_lt.mpr hvalue h.2)
    have hspells : ∀ id, (Node.integer id (Int64.ofNat (decimalValue text))).Spells
        (String.ofList text) := by
      intro id
      refine ⟨fun h => hspelled.1 (String.ofList_eq_empty_iff.mp h), ?_, ?_, ?_⟩
      · rw [String.toList_ofList]
        exact hspelled.2
      · rw [String.toList_ofList]
        exact hvalue
      · rw [String.toList_ofList]
    exact (settles_leaf hdraft hp rfl (fun _ => rfl) (fun _ => rfl) hspells).congr hquiet
  · next hvalue =>
    have hfirst : firstOversized? [.mk .integer span text []] = some (.mk .integer span text []) :=
      (firstOversized?_cons _ _).trans (if_pos ⟨rfl, Nat.lt_of_not_le hvalue⟩)
    unfold Build.Settles
    rw [hfirst]
    rfl

theorem settles_nil (hdraft : draft.Counts first) (h : lo ≤ hi) :
    Build.Settles (pure []) draft [] (PartsMade source first draft lo hi) :=
  Build.settles_pure (partsMade_nil hdraft h)

/-- One more part before others. -/
theorem settles_cons {build : Build Part} {rest : Build (List Part)} {more : List Pair}
    (hlo : lo ≤ p.span.start) (h : build.Settles draft [p]
      (Part.Made source first draft p.span.start p.span.stop))
    (hrest : ∀ draft', draft'.Counts first →
      rest.Settles draft' more (PartsMade source first draft' p.span.stop hi)) :
    Build.Settles (do let part ← build; let parts ← rest; pure (part :: parts)) draft (p :: more)
      (PartsMade source first draft lo hi) := by
  rw [← List.singleton_append, ← List.append_nil more]
  refine h.bind fun part draft₁ hpart => ?_
  refine (hrest draft₁ hpart.grows.counts).bind fun parts draft₂ hparts => Build.settles_pure ?_
  exact (hpart.widen hlo (Nat.le_refl _)).cons hparts

theorem settles_toIdentifiers (hdraft : draft.Counts first) {names : List Pair}
    (hnames : Pair.Row source lo names hi) (hrules : ∀ r ∈ rulesOf names, r = .identifier) :
    Build.Settles (names.mapM Pair.toIdentifier) draft names (PartsMade source first draft lo hi) := by
  induction names generalizing draft lo with
  | nil =>
    rw [List.mapM_nil]
    exact settles_nil hdraft hnames.between.le
  | cons name more ih =>
    rw [List.mapM_cons]
    obtain ⟨hname, hlo, hmore⟩ := hnames.cons
    obtain ⟨hrule, hrules⟩ := List.forall_mem_cons.mp hrules
    refine settles_cons hlo (Pair.settles_toIdentifier hdraft hname hrule) ?_
    exact fun draft' hdraft' => ih hdraft' hmore hrules

end

/-! ## Building from pairs -/

section

variable {source : String} {first : NodeId}

mutual

theorem Pair.settles_toStatement (p : Pair) {draft : Draft} (hdraft : draft.Counts first)
    (hp : p.Sound source) (hrule : p.rule ∈ statementRules) :
    p.toStatement.Settles draft [p]
      (Part.Made source first draft p.span.start p.span.stop) := by
  unfold Pair.toStatement
  split
  · next span text keyword name value =>
    obtain ⟨hk, hrest⟩ := List.cons.inj (mem_parts_letStatement hp.parts)
    obtain ⟨hn, hrest⟩ := List.cons.inj hrest
    obtain ⟨hv, -⟩ := List.cons.inj hrest
    obtain ⟨hkeyword, -, -⟩ := hp.row.cons
    obtain ⟨hname, hlon, hrow⟩ := hp.row.tail.cons
    obtain ⟨hvalue, hlov, hrow⟩ := hrow.cons
    refine .whole ?_ nofun
    refine .behind ?_ hkeyword hk (by decide) nofun
    refine (Pair.settles_toIdentifier hdraft hname hn).bind fun target draft₁ ht => ?_
    refine (value.settles_toExpression ht.grows.counts hvalue hv).bind fun bound draft₂ hb => ?_
    have hparts := (ht.widen hlon (Nat.le_refl _)).cons (hb.widen hlov hrow.between.le).single
    exact hparts.settles_node hp rfl (fun _ => rfl) (fun _ => rfl) fun _ => trivial
  · next span text keyword value =>
    obtain ⟨hk, hrest⟩ := List.cons.inj (mem_parts_returnStatement hp.parts)
    obtain ⟨hv, -⟩ := List.cons.inj hrest
    obtain ⟨hkeyword, -, -⟩ := hp.row.cons
    obtain ⟨hvalue, hlov, hrow⟩ := hp.row.tail.cons
    refine .whole ?_ nofun
    refine .behind ?_ hkeyword hk (by decide) nofun
    refine (value.settles_toExpression hdraft hvalue hv).bind fun result draft₁ hr => ?_
    have hparts := (hr.widen hlov hrow.between.le).single
    exact hparts.settles_node hp rfl (fun _ => rfl) (fun _ => rfl) fun _ => trivial
  · next span text expression =>
    obtain ⟨he, -⟩ := List.cons.inj (mem_parts_expressionStatement hp.parts)
    obtain ⟨hexpression, hlo, hrow⟩ := hp.row.cons
    refine .whole ?_ nofun
    refine (expression.settles_toExpression hdraft hexpression he).bind fun inner draft₁ hi => ?_
    have hparts := (hi.widen hlo hrow.between.le).single
    exact hparts.settles_node hp rfl (fun _ => rfl) (fun _ => rfl) fun _ => trivial
  · next hlet hreturn hexpression =>
    rcases Pair.statement_cases hrule hp.parts with
      ⟨span, text, k, n, v, rfl⟩ | ⟨span, text, k, v, rfl⟩ | ⟨span, text, e, rfl⟩
    · exact absurd rfl (hlet span text k n v)
    · exact absurd rfl (hreturn span text k v)
    · exact absurd rfl (hexpression span text e)
termination_by sizeOf p

theorem Pair.settles_toStatements (parts : List Pair) {draft : Draft} {lo hi : Nat}
    (hdraft : draft.Counts first) (hparts : Pair.Row source lo parts hi)
    (hrules : ∀ p ∈ parts, p.rule ∈ statementRules ∨ p.rule = .endOfInput) :
    (Pair.toStatements parts).Settles draft parts (PartsMade source first draft lo hi) := by
  unfold Pair.toStatements
  split
  · exact settles_nil hdraft hparts.between.le
  · next span text inner more =>
    obtain ⟨hp, -, -⟩ := hparts.cons
    have hrule : (Pair.mk .endOfInput span text inner).rule = .endOfInput := rfl
    refine .behind ?_ hp hrule (by decide) nofun
    exact Pair.settles_toStatements more hdraft hparts.tail (List.forall_mem_cons.mp hrules).2
  · next p more hend =>
    obtain ⟨hp, hlo, hmore⟩ := hparts.cons
    obtain ⟨hrule, hrules⟩ := List.forall_mem_cons.mp hrules
    have hstatement : p.rule ∈ statementRules := by
      refine hrule.resolve_right fun h => ?_
      obtain ⟨r, span, text, inner⟩ := p
      obtain rfl : r = .endOfInput := h
      exact hend span text inner rfl
    refine settles_cons hlo (p.settles_toStatement hdraft hp hstatement) fun draft' hdraft' => ?_
    exact Pair.settles_toStatements more hdraft' hmore hrules
termination_by sizeOf parts

theorem Pair.settles_toBlock (p : Pair) {draft : Draft} (hdraft : draft.Counts first)
    (hp : p.Sound source) (hrule : p.rule = .block) :
    p.toBlock.Settles draft [p]
      (Part.Made source first draft p.span.start p.span.stop) := by
  unfold Pair.toBlock
  split
  · next span text parts =>
    have hrules : ∀ q ∈ parts, q.rule ∈ statementRules ∨ q.rule = .endOfInput := fun q hq =>
      .inl (mem_parts_block hp.parts q.rule (List.mem_map_of_mem hq))
    refine .whole ?_ nofun
    rw [← List.append_nil (Pair.children _)]
    refine (Pair.settles_toStatements parts hdraft hp.row hrules).bind
      fun statements draft₁ hstatements => ?_
    exact hstatements.settles_node hp rfl (fun _ => rfl) (fun _ => rfl) fun _ => trivial
  · next hblock =>
    obtain ⟨r, span, text, parts⟩ := p
    obtain rfl : r = .block := hrule
    exact absurd rfl (hblock span text parts)
termination_by sizeOf p

theorem Pair.settles_toExpression (p : Pair) {draft : Draft} (hdraft : draft.Counts first)
    (hp : p.Sound source) (hrule : p.rule = .expression) :
    p.toExpression.Settles draft [p]
      (Part.Made source first draft p.span.start p.span.stop) := by
  unfold Pair.toExpression
  split
  · next span text parts =>
    refine .whole ?_ nofun
    exact Pair.settles_toFormula _ hdraft Pending.lies_empty parts hp.row
      (mem_parts_expression hp.parts)
  · next hexpression =>
    obtain ⟨r, span, text, parts⟩ := p
    obtain rfl : r = .expression := hrule
    exact absurd rfl (hexpression span text parts)
termination_by sizeOf p

theorem Pair.settles_toFormula (whole : Pair) {pending : Pending} {draft : Draft} {lo mid hi : Nat}
    (hdraft : draft.Counts first) (hpending : pending.Lies source (draft.place first) lo mid)
    (parts : List Pair) (hparts : Pair.Row source mid parts hi)
    (hrules : Alternates pending.operand.isSome (rulesOf parts)) :
    (Pair.toFormula whole pending parts).Settles draft parts
      (Part.Made source first draft lo hi) := by
  unfold Pair.toFormula
  split
  · split
    · next hoperand =>
      rw [hoperand] at hrules
      cases hrules
    · next operand hoperand =>
      refine (hpending.settles_finish hdraft hoperand).quietly fun formula draft₁ hformula => ?_
      refine (Formula.settles_build hformula.1.counts hformula.2).mono fun part draft₂ h => ?_
      exact (h.after hformula.1).widen (Nat.le_refl _) hparts.between.le
  · next r span text inner more =>
    obtain ⟨hp, hlo, hmore⟩ := hparts.cons
    split
    · -- an operator before the operand
      next op hoperand hop =>
      rw [hoperand] at hrules
      cases hrules with
      | prefixOp hr hrest =>
        obtain ⟨htoken, hno, -⟩ := Rule.prefixOp_of_mem hr
        refine .behind ?_ hp rfl htoken hno
        have hnext := hpending.withPrefix hoperand op hlo hp.inText.le hp.inText.start_valid
        exact Pair.settles_toFormula whole hdraft hnext more hmore (by rw [hoperand]; exact hrest)
      | primary hr _ => cases (Rule.prefixOp_of_mem_primary hr).symm.trans hop
    · -- the operand
      next hoperand hop =>
      rw [hoperand] at hrules
      cases hrules with
      | prefixOp hr _ =>
        obtain ⟨-, -, op, hsome⟩ := Rule.prefixOp_of_mem hr
        cases hsome.symm.trans hop
      | primary hr hrest =>
        rw [← List.singleton_append]
        refine (Pair.settles_toPrimary _ hdraft hp hr).bind fun operand draft₁ ho => ?_
        have hnext := (hpending.grow ho.grows).withOperand hoperand ho.placed
          (Nat.le_trans hlo ho.lo_le) ho.le_hi
        exact (Pair.settles_toFormula whole ho.grows.counts hnext more hmore hrest).mono
          fun _ _ h => h.after ho.grows
    · -- an operator after the operand
      next operand op hoperand hop =>
      rw [hoperand] at hrules
      cases hrules with
      | callArgs _ => cases hop
      | infixOp hr hrest =>
        obtain ⟨htoken, hno, -⟩ := Rule.infixOp_of_mem hr
        refine .behind ?_ hp rfl htoken hno
        refine (hpending.settles_finish hdraft hoperand).quietly fun formula draft₁ hformula => ?_
        have hnext := hformula.2.pending op (Nat.le_trans hlo hp.inText.le)
        exact (Pair.settles_toFormula whole hformula.1.counts hnext more hmore hrest).mono
          fun _ _ h => h.after hformula.1
    · -- the arguments of a call
      next operand hoperand hop =>
      rw [hoperand] at hrules
      cases hrules with
      | infixOp hr _ =>
        obtain ⟨-, -, op, hsome⟩ := Rule.infixOp_of_mem hr
        cases hsome.symm.trans hop
      | callArgs hrest =>
        obtain ⟨hplaced, hle⟩ := hpending.operand hoperand
        rw [if_pos rfl, ← List.singleton_append]
        have harguments : (Pair.toExpressions inner).Settles draft [.mk .callArgs span text inner]
            (PartsMade source first draft span.start span.stop) :=
          .whole (Pair.settles_toExpressions inner hdraft hp.row (mem_parts_callArgs hp.parts)) nofun
        refine harguments.bind fun arguments draft₁ ha => ?_
        have hbegun : operand.Made source first draft operand.span.start span.start draft :=
          hplaced.made hdraft (Nat.le_refl _) (Nat.le_trans hle hlo)
        have hcall : PartsMade source first draft operand.span.start span.stop
            (operand :: arguments) draft₁ := hbegun.cons ha
        have hne : operand.span.start < span.stop :=
          Nat.lt_of_lt_of_le hplaced.nonempty
            (Nat.le_trans hle (Nat.le_trans hlo hp.inText.le))
        have hwhole : (Build.alloc ⟨operand.span.start, span.stop⟩
            (.call · operand.node (nodesOf arguments))).Settles draft₁ []
            (Part.Made source first draft operand.span.start span.stop) :=
          hcall.settles_alloc (fun _ => rfl) (fun _ => rfl) hplaced.placedAt.start_valid
            hp.inText.stop_valid hne fun _ => trivial
        refine hwhole.quietly fun result draft₂ hr => ?_
        have hnext := (hpending.grow hr.grows).withCall hoperand hr.placed hr.lo_le hr.le_hi
        exact (Pair.settles_toFormula whole hr.grows.counts hnext more hmore hrest).mono
          fun _ _ h => h.after hr.grows
-- what is inside a pair or behind it in a list is smaller
termination_by sizeOf parts
decreasing_by
  all_goals
    subst_vars
    simp only [Pair.mk.sizeOf_spec, List.cons.sizeOf_spec]
    omega

theorem Pair.settles_toExpressions (parts : List Pair) {draft : Draft} {lo hi : Nat}
    (hdraft : draft.Counts first) (hparts : Pair.Row source lo parts hi)
    (hrules : ∀ r ∈ rulesOf parts, r = .expression) :
    (Pair.toExpressions parts).Settles draft parts (PartsMade source first draft lo hi) := by
  unfold Pair.toExpressions
  split
  · exact settles_nil hdraft hparts.between.le
  · next p more =>
    obtain ⟨hp, hlo, hmore⟩ := hparts.cons
    obtain ⟨hrule, hrules⟩ := List.forall_mem_cons.mp hrules
    refine settles_cons hlo (p.settles_toExpression hdraft hp hrule) fun draft' hdraft' => ?_
    exact Pair.settles_toExpressions more hdraft' hmore hrules
termination_by sizeOf parts

theorem Pair.settles_toPrimary (p : Pair) {draft : Draft} (hdraft : draft.Counts first)
    (hp : p.Sound source) (hrule : p.rule ∈ primaryRules) :
    p.toPrimary.Settles draft [p]
      (Part.Made source first draft p.span.start p.span.stop) := by
  unfold Pair.toPrimary
  split
  · next span text parts =>
    refine .whole ?_ nofun
    exact Pair.settles_toFormula _ hdraft Pending.lies_empty parts hp.row
      (mem_parts_expression hp.parts)
  · next span text parts =>
    have hspelled : text ≠ [] ∧ ∀ x ∈ text, isDigit x = true := hp.wellMade.here.spelled
    exact settles_integer hdraft hp hspelled
  · next span text parts =>
    obtain ⟨value, rfl⟩ : ∃ value, text = truthText value := hp.wellMade.here.spelled
    refine .behind ?_ hp rfl (show Rule.boolean ∈ _ by decide) nofun
    refine settles_leaf hdraft hp rfl (fun _ => rfl) (fun _ => rfl) fun _ => ?_
    cases value <;> rfl
  · next span text parts => exact Pair.settles_toIdentifier hdraft hp rfl
  · next span text keyword condition consequence =>
    have hw := (mem_parts_ifExpression hp.parts).resolve_right fun h => nomatch length_of_rulesOf h
    obtain ⟨hk, hrest⟩ := List.cons.inj hw
    obtain ⟨hc, hrest⟩ := List.cons.inj hrest
    obtain ⟨ht, -⟩ := List.cons.inj hrest
    obtain ⟨hkeyword, -, -⟩ := hp.row.cons
    obtain ⟨hcondition, hloc, hrow⟩ := hp.row.tail.cons
    obtain ⟨hconsequence, hlot, hrow⟩ := hrow.cons
    refine .whole ?_ nofun
    refine .behind ?_ hkeyword hk (by decide) nofun
    refine (condition.settles_toExpression hdraft hcondition hc).bind fun test draft₁ h₁ => ?_
    refine (consequence.settles_toBlock h₁.grows.counts hconsequence ht).bind
      fun chosen draft₂ h₂ => ?_
    have hparts := (h₁.widen hloc (Nat.le_refl _)).cons (h₂.widen hlot hrow.between.le).single
    exact hparts.settles_node hp rfl (fun _ => rfl) (fun _ => rfl) fun _ => trivial
  · next span text keyword condition consequence keyword' alternative =>
    have hw := (mem_parts_ifExpression hp.parts).resolve_left fun h => nomatch length_of_rulesOf h
    obtain ⟨hk, hrest⟩ := List.cons.inj hw
    obtain ⟨hc, hrest⟩ := List.cons.inj hrest
    obtain ⟨ht, hrest⟩ := List.cons.inj hrest
    obtain ⟨hk', hrest⟩ := List.cons.inj hrest
    obtain ⟨he, -⟩ := List.cons.inj hrest
    obtain ⟨hkeyword, -, -⟩ := hp.row.cons
    obtain ⟨hcondition, hloc, hrow⟩ := hp.row.tail.cons
    obtain ⟨hconsequence, hlot, hrow⟩ := hrow.cons
    obtain ⟨hkeyword', -, -⟩ := hrow.cons
    obtain ⟨halternative, hloe, hend⟩ := hrow.tail.cons
    refine .whole ?_ nofun
    refine .behind ?_ hkeyword hk (by decide) nofun
    refine (condition.settles_toExpression hdraft hcondition hc).bind fun test draft₁ h₁ => ?_
    refine (consequence.settles_toBlock h₁.grows.counts hconsequence ht).bind
      fun chosen draft₂ h₂ => ?_
    refine .behind ?_ hkeyword' hk' (by decide) nofun
    refine (alternative.settles_toBlock h₂.grows.counts halternative he).bind
      fun other draft₃ h₃ => ?_
    have hparts := (h₁.widen hloc (Nat.le_refl _)).cons ((h₂.widen hlot (Nat.le_refl _)).cons
      (h₃.widen hloe hend.between.le).single)
    exact hparts.settles_node hp rfl (fun _ => rfl) (fun _ => rfl) fun _ => trivial
  · next span text keyword r nspan ntext names body =>
    obtain ⟨hk, hrest⟩ := List.cons.inj (mem_parts_functionLiteral hp.parts)
    obtain ⟨hr, hrest⟩ := List.cons.inj hrest
    obtain ⟨hb, -⟩ := List.cons.inj hrest
    obtain rfl : r = .parameters := hr
    obtain ⟨hkeyword, -, -⟩ := hp.row.cons
    obtain ⟨hnames, hlon, hrow⟩ := hp.row.tail.cons
    obtain ⟨hbody, hlob, hrow⟩ := hrow.cons
    have hrules := mem_parts_parameters hnames.parts
    refine .whole ?_ nofun
    refine .behind ?_ hkeyword hk (by decide) nofun
    refine ((settles_toIdentifiers hdraft hnames.row hrules).whole nofun).bind
      fun parameters draft₁ h₁ => ?_
    refine (body.settles_toBlock h₁.grows.counts hbody hb).bind fun code draft₂ h₂ => ?_
    have hparts := (h₁.widen hlon).append (h₂.widen hlob hrow.between.le).single
    refine hparts.settles_node hp rfl (fun _ => rfl) (fun _ => ?_) fun _ => trivial
    rw [nodesOf, nodesOf, List.map_append]
    rfl
  · next hexpression hinteger hboolean hidentifier hif hifelse hfunction =>
    rcases Pair.primary_cases hrule hp.parts with hr | ⟨span, text, k, c, t, rfl⟩ |
      ⟨span, text, k, c, t, k', e, rfl⟩ | ⟨span, text, k, r, nspan, ntext, names, b, rfl⟩
    · obtain ⟨r, span, text, inner⟩ := p
      simp only [List.mem_cons, List.not_mem_nil, or_false] at hr
      rcases hr with hr | hr | hr | hr <;> obtain rfl : r = _ := hr
      · exact absurd rfl (hexpression span text inner)
      · exact absurd rfl (hinteger span text inner)
      · exact absurd rfl (hboolean span text inner)
      · exact absurd rfl (hidentifier span text inner)
    · exact absurd rfl (hif span text k c t)
    · exact absurd rfl (hifelse span text k c t k' e)
    · exact absurd rfl (hfunction span text k r nspan ntext names b)
termination_by sizeOf p
decreasing_by
  all_goals
    subst_vars
    simp only [Pair.mk.sizeOf_spec, List.cons.sizeOf_spec]
    omega

end

end

/-! ## Building at a level -/

section

variable {source : String} {first : NodeId} {level : Level} {pairs : List Pair} {next : Cursor}
  {a : Attempts}

theorem Rule.between_of_recognise {r : Rule} (h : r.recognise source.toList = .matched pairs next a) :
    Pair.Between source 0 pairs next.offset := by
  have hlies := r.lies_recognise source.toList
  rw [h] at hlies
  exact ⟨_, _, .refl _, hlies.1, Nat.le_refl _, Nat.le_refl _⟩

/-- The only pair of a match of an entry rule covers the whole text. -/
theorem Level.sound_of_recognise (h : level.rule.recognise source.toList = .matched pairs next a) :
    ∃ p, pairs = [p] ∧ p.rule = level.rule ∧ p.span = ⟨0, source.utf8ByteSize⟩ ∧ p.Sound source := by
  have hmade := Rule.wellMade_of_run _ h
  have hbetween := Rule.between_of_recognise h
  have hlies := level.rule.lies_recognise source.toList
  rw [h] at hlies
  obtain ⟨items, last, ⟨mid, -, hend⟩, rfl⟩ := Level.of_recognise h
  obtain ⟨inner, hbody, -⟩ := hend.eq_mk rfl rfl
  obtain ⟨hrest, -, rfl⟩ := Pattern.matches_finish.mp hbody
  refine ⟨_, rfl, rfl, ?_, hbetween.cons.1, hmade _ List.mem_cons_self⟩
  exact congrArg (Span.mk 0) (hlies.1.leadsTo.offset_of_nil hrest)

/-- A root has its place over the whole text, and the nodes below it theirs inside. -/
def Node.PlacedOver (source : String) (place : NodeId → Option Span) (n : Node) : Prop :=
  n.PlacedAt source place ⟨0, source.utf8ByteSize⟩ ∧ n.Placed source place

/-- The root is made around parts that have been made. -/
theorem PartsMade.settles_root {p : Pair} (hp : p.Sound source)
    (hspan : p.span = ⟨0, source.utf8ByteSize⟩) {draft draft' : Draft} {parts : List Part}
    (h : PartsMade source first draft 0 source.utf8ByteSize parts draft') :
    (Build.alloc ⟨0, source.utf8ByteSize⟩ (.program · (nodesOf parts))).Settles draft' []
      fun root draft'' => root.node.PlacedOver source (draft''.place first) := by
  have hstart := hp.inText.start_valid
  have hstop := hp.inText.stop_valid
  rw [hspan] at hstart hstop
  have hplaced : (Node.program draft'.next (nodesOf parts)).PlacedOver source
      ((draft'.push ⟨0, source.utf8ByteSize⟩).place first) :=
    PartsMade.placedAt_push h rfl rfl hstart hstop trivial
  exact ⟨_, _, rfl, hplaced⟩

/-- **Building at a level** makes a program that is placed over the whole text, unless an integer is
out of range. -/
theorem Level.settles_build {p : Pair} (hp : p.Sound source) (hrule : p.rule = level.rule)
    (hspan : p.span = ⟨0, source.utf8ByteSize⟩) {draft : Draft} (hdraft : draft.Counts first) :
    (level.build source.utf8ByteSize p).Settles draft [p]
      fun root draft' => root.node.PlacedOver source (draft'.place first) := by
  have hroot : ∀ {draft draft' : Draft} {parts : List Part},
      PartsMade source first draft 0 source.utf8ByteSize parts draft' →
      (Build.alloc ⟨0, source.utf8ByteSize⟩ (.program · (nodesOf parts))).Settles draft' []
        fun root draft'' => root.node.PlacedOver source (draft''.place first) :=
    fun h => h.settles_root hp hspan
  have hrow := hp.row
  rw [hspan] at hrow
  obtain ⟨r, span, text, inner⟩ := p
  obtain rfl : r = level.rule := hrule
  obtain rfl : span = _ := hspan
  have hno : (Pair.mk level.rule ⟨0, source.utf8ByteSize⟩ text inner).rule ≠ .integer := by
    cases level <;> nofun
  refine .whole ?_ hno
  cases level with
  | program =>
    obtain ⟨rs, hrs, hstatements⟩ := mem_parts_program hp.parts
    have hrules : ∀ q ∈ inner, q.rule ∈ statementRules ∨ q.rule = .endOfInput := by
      intro q hq
      have hmem : q.rule ∈ rs ++ [.endOfInput] := hrs ▸ List.mem_map_of_mem hq
      rcases List.mem_append.mp hmem with h | h
      · exact .inl (hstatements _ h)
      · exact .inr (List.mem_singleton.mp h)
    rw [← List.append_nil (Pair.children _)]
    exact (Pair.settles_toStatements inner hdraft hrow hrules).bind fun parts draft' h => hroot h
  | statement =>
    obtain ⟨r, hr, hw⟩ := mem_parts_statementInput hp.parts
    obtain ⟨item, last, rfl⟩ := List.length_eq_two.mp (length_of_rulesOf hw)
    obtain ⟨rfl, hlast⟩ := List.cons.inj hw
    obtain ⟨hitem, hlo, hrest⟩ := hrow.cons
    obtain ⟨hend, -, -⟩ := hrest.cons
    refine (item.settles_toStatement hdraft hitem hr).bind fun only draft' h => ?_
    refine .behind ?_ hend (List.cons.inj hlast).1 (by decide) nofun
    exact hroot (h.widen hlo hrest.between.le).single
  | expression =>
    have hw := mem_parts_expressionInput hp.parts
    obtain ⟨item, last, rfl⟩ := List.length_eq_two.mp (length_of_rulesOf hw)
    obtain ⟨hr, hlast⟩ := List.cons.inj hw
    obtain ⟨hitem, hlo, hrest⟩ := hrow.cons
    obtain ⟨hend, -, -⟩ := hrest.cons
    refine (item.settles_toExpression hdraft hitem hr).bind fun inner draft₁ h => ?_
    refine .behind ?_ hend (List.cons.inj hlast).1 (by decide) nofun
    have hone : PartsMade source first draft inner.span.start inner.span.stop [inner] draft₁ :=
      (Part.Made.mk h.grows h.placed (Nat.le_refl _) (Nat.le_refl _)).single
    have honly : (Build.alloc inner.span (.expressionStatement · inner.node)).Settles draft₁ []
        (Part.Made source first draft inner.span.start inner.span.stop) :=
      hone.settles_alloc (fun _ => rfl) (fun _ => rfl) h.placed.placedAt.start_valid
        h.placed.placedAt.stop_valid h.placed.nonempty fun _ => trivial
    refine honly.quietly fun only draft₂ h₂ => ?_
    exact hroot (h₂.widen (Nat.le_trans hlo h.lo_le) (Nat.le_trans h.le_hi hrest.between.le)).single

/-- A text is refused where the grammar does not match, or for the first integer out of range. -/
theorem cases_of_parseAt_error {e : ParseError} (h : parseAt first source level = .error e) :
    (∃ a, level.rule.recognise source.toList = .failed a ∧
      e = ⟨.mismatch (a.expected.map Rule.label), ⟨a.offset, a.offset⟩⟩) ∨
    ∃ pairs next a t, level.rule.recognise source.toList = .matched pairs next a ∧
      firstOversized? pairs = some t ∧ e = t.tooLarge := by
  unfold parseAt at h
  cases hrun : level.rule.recognise source.toList with
  | exhausted =>
    rw [Rule.recognise_eq] at hrun
    exact absurd hrun (level.rule.outcome_ne_exhausted false _ _)
  | failed a =>
    rw [hrun] at h
    exact .inl ⟨a, rfl, (Except.error.inj h).symm⟩
  | matched pairs next a =>
    obtain ⟨p, rfl, hrule, hspan, hp⟩ := Level.sound_of_recognise hrun
    have hbuild := Level.settles_build hp hrule hspan (rfl : Draft.Counts first ⟨first, #[]⟩)
    unfold Build.Settles at hbuild
    rw [hrun] at h
    dsimp only at h
    split at hbuild
    · next t hfirst =>
      rw [hbuild] at h
      exact .inr ⟨_, next, a, t, rfl, hfirst, (Except.error.inj h).symm⟩
    · obtain ⟨root, draft, hok, -⟩ := hbuild
      rw [hok] at h
      cases h

end

end TraceTree

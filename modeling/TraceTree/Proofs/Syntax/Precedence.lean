import Mathlib
import TraceTree.Proofs.Syntax.Grammatical
import TraceTree.Proofs.Syntax.Settling

set_option autoImplicit false

/-! # Operator precedence

The grammar gives an expression as a sequence of pairs: operands with operators and arguments between
them. How the sequence is put together is a `Grouping`. The tree that is built from the sequence has a
grouping that keeps to the table of precedences (`Grouping.Arranged`). There is only one such
grouping: it is what climbing through the sequence by binding powers comes to
(`Grouping.ReadAbove`), which is deterministic. -/

namespace TraceTree

open Build

/-- How a sequence of pairs is put together. A group in parentheses is a single pair. -/
inductive Grouping where
  | primary (p : Pair)
  | prefixed (op : Pair) (right : Grouping)
  | called (function : Grouping) (arguments : Pair)
  | infixed (left : Grouping) (op : Pair) (right : Grouping)

/-- The precedence of the operator that a pair stands for. -/
def Pair.precedence (p : Pair) : Nat := p.rule.infixOp?.elim 0 InfixOp.precedence

namespace Grouping

/-- The pairs in the order in which they are written. -/
def inOrder : Grouping → List Pair
  | primary p => [p]
  | prefixed op right => op :: right.inOrder
  | called function arguments => function.inOrder ++ [arguments]
  | infixed left op right => left.inOrder ++ op :: right.inOrder

/-- The operator between the two halves, if there is one, binds at least as tight as `n`. -/
def AtLeast (n : Nat) : Grouping → Prop
  | infixed _ op _ => n ≤ op.precedence
  | _ => True

/-- The operator between the two halves, if there is one, binds tighter than `n`. -/
def TighterThan (n : Nat) : Grouping → Prop
  | infixed _ op _ => n < op.precedence
  | _ => True

/-- Not two halves with an operator between them. -/
def IsUnary : Grouping → Prop
  | infixed _ _ _ => False
  | _ => True

/-- An operand, perhaps with arguments behind it. -/
def IsPostfix : Grouping → Prop
  | primary _ | called _ _ => True
  | _ => False

/-- **The table of precedences.** At the left of an operator stands only what binds at least as tight,
at its right only what binds tighter; the operand of a prefix operator has no operator between two
halves, and neither has a callee, which does not begin with a prefix operator either. -/
def Arranged : Grouping → Prop
  | primary p => p.rule ∈ primaryRules
  | prefixed op right => op.rule ∈ prefixRules ∧ right.IsUnary ∧ right.Arranged
  | called function arguments =>
    arguments.rule = .callArgs ∧ function.IsPostfix ∧ function.Arranged
  | infixed left op right => op.rule ∈ infixRules ∧ left.AtLeast op.precedence ∧
    right.TighterThan op.precedence ∧ left.Arranged ∧ right.Arranged

/-- A tree is put together like a sequence of pairs, from what the pairs of operands and of arguments
are built into. -/
inductive Describes : Grouping → Node → Prop where
  | primary {p : Pair} {draft draft' : Draft} {part : Part}
      (h : p.toPrimary draft = .ok (part, draft')) : Describes (.primary p) part.node
  | prefixed {id : NodeId} {p : Pair} {op : PrefixOp} {right : Grouping} {n : Node}
      (hop : p.rule.prefixOp? = some op) (hright : right.Describes n) :
      Describes (.prefixed p right) (.prefixExpression id op n)
  | called {id : NodeId} {p : Pair} {function : Grouping} {n : Node} {draft draft' : Draft}
      {parts : List Part} (hfunction : function.Describes n)
      (harguments : Pair.toExpressions p.children draft = .ok (parts, draft')) :
      Describes (.called function p) (.call id n (nodesOf parts))
  | infixed {id : NodeId} {p : Pair} {op : InfixOp} {left right : Grouping} {l r : Node}
      (hop : p.rule.infixOp? = some op) (hleft : left.Describes l) (hright : right.Describes r) :
      Describes (.infixed left p right) (.infixExpression id op l r)

theorem IsPostfix.isUnary {g : Grouping} (h : g.IsPostfix) : g.IsUnary := by
  cases g <;> trivial

end Grouping

/-! ## Climbing by binding powers -/

/-- How tight a pair binds what stands before it: an operator by its precedence, arguments tighter
than all operators. Operators before an operand come between the two. -/
def Pair.power (p : Pair) : Nat := if p.rule = .callArgs then 60 else 10 * p.precedence

/-- What binds tighter than this is read into the operand of a prefix operator. -/
def prefixPower : Nat := 49

namespace Grouping

/-- Reading a sequence of pairs, with what has been begun at its left: as long as the next pair binds
tighter than `power`, it is read on. -/
inductive ReadAbove : Nat → Option Grouping → List Pair → Grouping → List Pair → Prop where
  | primary {power : Nat} {p : Pair} {ps rest : List Pair} {g : Grouping}
      (hp : p.rule ∈ primaryRules) (h : ReadAbove power (some (.primary p)) ps g rest) :
      ReadAbove power none (p :: ps) g rest
  | prefixed {power : Nat} {p : Pair} {ps mid rest : List Pair} {g right : Grouping}
      (hp : p.rule ∈ prefixRules) (hright : ReadAbove prefixPower none ps right mid)
      (h : ReadAbove power (some (.prefixed p right)) mid g rest) :
      ReadAbove power none (p :: ps) g rest
  | called {power : Nat} {p : Pair} {ps rest : List Pair} {g begun : Grouping}
      (hp : p.rule = .callArgs) (hpower : power < p.power)
      (h : ReadAbove power (some (.called begun p)) ps g rest) :
      ReadAbove power (some begun) (p :: ps) g rest
  | infixed {power : Nat} {p : Pair} {ps mid rest : List Pair} {g begun right : Grouping}
      (hp : p.rule ∈ infixRules) (hpower : power < p.power)
      (hright : ReadAbove p.power none ps right mid)
      (h : ReadAbove power (some (.infixed begun p right)) mid g rest) :
      ReadAbove power (some begun) (p :: ps) g rest
  | stop {power : Nat} {ps : List Pair} {begun : Grouping} (h : ∀ p ∈ ps.head?, p.power ≤ power) :
      ReadAbove power (some begun) ps begun ps

/-- **Climbing is deterministic.** -/
theorem ReadAbove.deterministic {power : Nat} {begun : Option Grouping} {ps rest rest' : List Pair}
    {g g' : Grouping} (h : ReadAbove power begun ps g rest) (h' : ReadAbove power begun ps g' rest') :
    g = g' ∧ rest = rest' := by
  induction h generalizing g' rest' with
  | primary hp h ih =>
    cases h' with
    | primary _ h' => exact ih h'
    | prefixed hp' _ _ => exact absurd hp' (Rule.not_mem_prefixRules hp)
  | prefixed hp hright h ihright ih =>
    cases h' with
    | primary hp' _ => exact absurd hp (Rule.not_mem_prefixRules hp')
    | prefixed _ hright' h' =>
      obtain ⟨rfl, rfl⟩ := ihright hright'
      exact ih h'
  | called hp hpower h ih =>
    cases h' with
    | called _ _ h' => exact ih h'
    | infixed hp' _ _ _ => exact absurd hp (Rule.ne_callArgs hp')
    | stop hstop => exact absurd (hstop _ rfl) (Nat.not_le.mpr hpower)
  | infixed hp hpower hright h ihright ih =>
    cases h' with
    | called hp' _ _ => exact absurd hp' (Rule.ne_callArgs hp)
    | infixed _ _ hright' h' =>
      obtain ⟨rfl, rfl⟩ := ihright hright'
      exact ih h'
    | stop hstop => exact absurd (hstop _ rfl) (Nat.not_le.mpr hpower)
  | stop hstop =>
    cases h' with
    | called _ hpower _ => exact absurd (hstop _ rfl) (Nat.not_le.mpr hpower)
    | infixed _ hpower _ _ => exact absurd (hstop _ rfl) (Nat.not_le.mpr hpower)
    | stop _ => exact ⟨rfl, rfl⟩

end Grouping

/-! ## The grouping of what is built -/

/-- A formula is put together like a grouping, from operands whose nodes are. -/
inductive Formula.GroupedAs : Formula Part → Grouping → Prop where
  | operand {part : Part} {g : Grouping} (hunary : g.IsUnary) (harranged : g.Arranged)
      (hdescribes : g.Describes part.node) : GroupedAs (.operand part) g
  | binary {op : InfixOp} {p : Pair} {left right : Formula Part} {l r : Grouping}
      (hop : p.rule.infixOp? = some op) (hleft : left.GroupedAs l) (hright : right.GroupedAs r) :
      GroupedAs (.binary op left right) (.infixed l p r)

section

variable {f : Formula Part} {g : Grouping} {n : Nat} {part : Part} {pending : Pending}
  {seen : List Pair}

/-- Attaching an operator and an operand adds their pairs at the end. -/
theorem Formula.GroupedAs.extend (h : f.GroupedAs g) {p : Pair} {op : InfixOp} {x : Grouping}
    (hop : p.rule.infixOp? = some op) (hpart : (Formula.operand part).GroupedAs x) :
    ∃ g', (f.extend op part).GroupedAs g' ∧ g'.inOrder = g.inOrder ++ p :: x.inOrder := by
  induction h with
  | operand hunary harranged hdescribes =>
    exact ⟨_, .binary hop (.operand hunary harranged hdescribes) hpart, rfl⟩
  | @binary o q left right l r ho hleft hright _ ihright =>
    rw [Formula.extend]
    split
    · obtain ⟨r', hr', heq⟩ := ihright
      refine ⟨.infixed l q r', .binary ho hleft hr', ?_⟩
      rw [Grouping.inOrder, heq, Grouping.inOrder, List.append_assoc, List.cons_append]
    · exact ⟨_, .binary hop (.binary ho hleft hright) hpart, rfl⟩

theorem Formula.GroupedAs.ensures_build (h : f.GroupedAs g) :
    f.build.Ensures fun part => g.Describes part.node := by
  induction h with
  | operand _ _ hdescribes => exact ensures_pure hdescribes
  | binary hop _ _ ihleft ihright =>
    refine ensures_bind ihleft fun l hl => ensures_bind ihright fun r hr => ?_
    intro draft part draft' hrun
    obtain ⟨rfl, -⟩ := Prod.mk.inj (Except.ok.inj hrun)
    exact .infixed hop hl hr

/-- What is pending was made of the pairs seen: those of the left part and the operator after it,
prefix operators (the innermost comes first), and the operand begun. -/
def Pending.Groups (pending : Pending) (seen : List Pair) : Prop :=
  ∃ left ops operand, seen = left ++ (ops.reverse ++ operand) ∧
    (match pending.left with
      | none => left = []
      | some (f, op) => ∃ g p, f.GroupedAs g ∧ f.Arranged ∧ p.rule.infixOp? = some op ∧
        left = g.inOrder ++ [p]) ∧
    List.Forall₂ (fun entry p => p.rule.prefixOp? = some entry.1) pending.prefixes ops ∧
    (match pending.operand with
      | none => operand = []
      | some part => ∃ g : Grouping, g.IsPostfix ∧ g.Arranged ∧ g.Describes part.node ∧
        operand = g.inOrder)

theorem ensures_grouped_applyPrefixes {entries : List (PrefixOp × Nat)} {ops : List Pair}
    (hops : List.Forall₂ (fun entry p => p.rule.prefixOp? = some entry.1) entries ops)
    (hpart : (Formula.operand part).GroupedAs g) :
    (applyPrefixes entries part).Ensures fun whole =>
      ∃ x, (Formula.operand whole).GroupedAs x ∧ x.inOrder = ops.reverse ++ g.inOrder := by
  induction hops generalizing part g with
  | nil => exact ensures_pure ⟨g, hpart, rfl⟩
  | @cons entry p entries ops hop _ ih =>
    obtain ⟨op, start⟩ := entry
    rw [applyPrefixes]
    cases hpart with
    | operand hunary harranged hdescribes =>
      have hwhole : (alloc ⟨start, part.span.stop⟩ (.prefixExpression · op part.node)).Ensures
          fun whole => (Formula.operand whole).GroupedAs (.prefixed p g) := by
        intro draft whole draft' hrun
        obtain ⟨rfl, -⟩ := Prod.mk.inj (Except.ok.inj hrun)
        exact .operand trivial ⟨Rule.mem_prefixRules hop, hunary, harranged⟩
          (.prefixed hop hdescribes)
      refine ensures_bind hwhole fun whole h draft a draft' hrun => ?_
      obtain ⟨x, hx, heq⟩ := ih h draft a draft' hrun
      refine ⟨x, hx, ?_⟩
      rw [heq, List.reverse_cons, List.append_assoc]
      rfl

theorem Pending.Groups.ensures_finish (h : pending.Groups seen) (hoperand : pending.operand = some part) :
    (pending.finish part).Ensures fun f => ∃ g, f.GroupedAs g ∧ f.Arranged ∧ g.inOrder = seen := by
  obtain ⟨left, prefixes, _⟩ := pending
  obtain rfl := hoperand
  obtain ⟨before, ops, operand, rfl, hleft, hops, g, hcallee, harranged, hdescribes, rfl⟩ := h
  refine ensures_bind (ensures_grouped_applyPrefixes hops
    (.operand hcallee.isUnary harranged hdescribes)) fun whole hwhole => ?_
  obtain ⟨x, hx, heq⟩ := hwhole
  match left with
  | none =>
    obtain rfl : before = [] := hleft
    exact ensures_pure ⟨x, hx, trivial, heq⟩
  | some (f, op) =>
    obtain ⟨l, p, hf, hfarranged, hop, rfl⟩ := hleft
    obtain ⟨y, hy, heq'⟩ := hf.extend hop hx
    refine ensures_pure ⟨y, hy, hfarranged.extend, ?_⟩
    rw [heq', heq, List.append_assoc]
    rfl

theorem Pending.Groups.withPrefix (h : pending.Groups seen) (hoperand : pending.operand = none)
    {p : Pair} {op : PrefixOp} (hop : p.rule.prefixOp? = some op) (start : Nat) :
    Pending.Groups { pending with prefixes := (op, start) :: pending.prefixes } (seen ++ [p]) := by
  obtain ⟨left, prefixes, _⟩ := pending
  obtain rfl := hoperand
  obtain ⟨before, ops, operand, rfl, hleft, hops, rfl⟩ := h
  refine ⟨before, p :: ops, [], ?_, hleft, .cons hop hops, rfl⟩
  rw [List.reverse_cons, List.append_nil, List.append_nil, List.append_assoc]

theorem Pending.Groups.withOperand (h : pending.Groups seen) (hoperand : pending.operand = none)
    (hcallee : g.IsPostfix) (harranged : g.Arranged) (hdescribes : g.Describes part.node) :
    Pending.Groups { pending with operand := some part } (seen ++ g.inOrder) := by
  obtain ⟨left, prefixes, _⟩ := pending
  obtain rfl := hoperand
  obtain ⟨before, ops, operand, rfl, hleft, hops, rfl⟩ := h
  refine ⟨before, ops, g.inOrder, ?_, hleft, hops, g, hcallee, harranged, hdescribes, rfl⟩
  rw [List.append_nil, List.append_assoc]

/-- Arguments behind the operand begun. -/
theorem Pending.Groups.withCall (h : pending.Groups seen) {operand : Part}
    (hoperand : pending.operand = some operand) {p : Pair} (hp : p.rule = .callArgs)
    (hcall : ∀ function : Grouping, function.Describes operand.node →
      (Grouping.called function p).Describes part.node) :
    Pending.Groups { pending with operand := some part } (seen ++ [p]) := by
  obtain ⟨left, prefixes, _⟩ := pending
  obtain rfl := hoperand
  obtain ⟨before, ops, _, rfl, hleft, hops, g, hcallee, harranged, hdescribes, rfl⟩ := h
  refine ⟨before, ops, g.inOrder ++ [p], ?_, hleft, hops, .called g p, trivial,
    ⟨hp, hcallee, harranged⟩, hcall g hdescribes, rfl⟩
  rw [List.append_assoc, List.append_assoc]

end

/-! ## Expressions -/

end TraceTree

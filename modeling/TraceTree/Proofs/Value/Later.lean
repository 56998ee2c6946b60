import TraceTree.Proofs.Eval.Allocation
import TraceTree.Proofs.Syntax.Later
import TraceTree.Proofs.Value.Ownership

set_option autoImplicit false

/-! # Values and scopes that are made later

Scopes, values, evaluators and nodes are numbered one after the other. On a heap that already has some
of them (`Past`) the same things get greater numbers. `Value.later` and `Heap.later` are a value and a
heap as they would be then, the heap with all that was there before in front. Nothing that is read of a
value or of a scope depends on it: numbers are only compared with one another, and all of one kind get
greater by the same amount. -/

namespace TraceTree

/-- What was made before: the heap, and the number of nodes. -/
structure Past where
  heap : Heap
  nodes : NodeId

/-- The scope with a number, made later. -/
def Past.scope (p : Past) (s : ScopeId) : ScopeId := p.heap.scopes.size + s

/-- The identity of a value made later. -/
def ValueId.later (p : Past) : ValueId → ValueId
  | made serial => made (p.heap.values + serial)
  | shared evaluator constant => shared (p.heap.evaluators + evaluator) constant

/-- A function that is read and defined later. -/
def Closure.later (p : Past) (closure : Closure) : Closure where
  parameters := Node.laterAll p.nodes closure.parameters
  body := closure.body.later p.nodes
  scope := p.scope closure.scope

namespace Value

/-- A value made later. -/
def later (p : Past) : Value → Value
  | integer id n => integer (id.later p) n
  | boolean id b => boolean (id.later p) b
  | null id => null (id.later p)
  | returned id v => returned (id.later p) (v.later p)
  | error id fault => error (id.later p) fault
  | function id closure => function (id.later p) (closure.later p)

end Value

/-! ## What is read of a value -/

theorem Past.scope_inj {p : Past} {s t : ScopeId} : p.scope s = p.scope t ↔ s = t :=
  Nat.add_left_cancel_iff

theorem ValueId.later_inj {p : Past} {a b : ValueId} : a.later p = b.later p ↔ a = b := by
  refine ⟨fun h => ?_, congrArg _⟩
  cases a <;> cases b <;> simp_all [later]

section

variable (p : Past) (v : Value)

@[simp] theorem Value.id_later : (v.later p).id = v.id.later p := by cases v <;> rfl

/-- Two values are one and the same later if they were before. -/
@[simp] theorem Value.is_later (w : Value) : (v.later p).is (w.later p) = v.is w := by
  rw [is, is, id_later, id_later, Bool.eq_iff_iff, beq_iff_eq, beq_iff_eq]
  exact ValueId.later_inj

@[simp] theorem Value.type_later : (v.later p).type = v.type := by cases v <;> rfl

@[simp] theorem Value.int?_later : (v.later p).int? = v.int? := by cases v <;> rfl

@[simp] theorem Value.isError_later : (v.later p).isError = v.isError := by cases v <;> rfl

@[simp] theorem Value.endsSequence_later : (v.later p).endsSequence = v.endsSequence := by
  cases v <;> rfl

@[simp] theorem Value.any_endsSequence_later (v : Option Value) :
    (v.map (later p)).any endsSequence = v.any endsSequence := by
  cases v <;> simp

@[simp] theorem Value.unwrapped_later : (v.later p).unwrapped = v.unwrapped.later p := by
  cases v <;> rfl

@[simp] theorem Value.isTruthy_later : (v.later p).isTruthy = v.isTruthy := by
  cases v with
  | boolean id b => cases b <;> rfl
  | _ => rfl

@[simp] theorem Value.same_later (w : Value) : (v.later p).same (w.later p) = v.same w := by
  have his := v.is_later p w
  cases v <;> cases w <;> first | rfl | exact his

/-- The text of a function does not show the numbers of its nodes. -/
theorem Node.bodyText_later (k : Nat) (n : Node) : (n.later k).bodyText = n.bodyText := by
  have hstatement : ∀ n : Node, (n.later k).bodyStatementText = n.bodyStatementText := by
    intro n
    cases n with
    | expressionStatement id expression => exact text_later k expression
    | ifExpression id c t e => cases e <;> exact text_later k _
    | _ => exact text_later k _
  cases n with
  | block id statements =>
    rw [later, bodyText, bodyText, laterAll_eq_map, List.map_map]
    exact congrArg (joined "\n") (List.map_congr_left fun n _ => hstatement n)
  | ifExpression id c t e => cases e <;> exact text_later k _
  | _ => exact text_later k _

@[simp] theorem Closure.text_later (closure : Closure) :
    (closure.later p).text = closure.text := by
  simp [text, later, Node.texts_later, Node.bodyText_later]

@[simp] theorem Value.text_later : (v.later p).text = v.text := by
  induction v with
  | returned id v ih => exact ih
  | function id closure => exact closure.text_later p
  | _ => rfl

end

/-! ## Operations -/

theorem PrefixOp.apply_later (p : Past) (op : PrefixOp) (right : Value) :
    op.apply (right.later p) = op.apply right := by
  cases op with
  | not => simp [apply]
  | neg => cases right <;> rfl

theorem InfixOp.apply_later (p : Past) (op : InfixOp) (left right : Value) :
    op.apply (left.later p) (right.later p) = op.apply left right :=
  op.apply_congr ⟨left.int?_later p, left.type_later p⟩ ⟨right.int?_later p, right.type_later p⟩
    (left.same_later p right)

/-! ## Bindings -/

/-- The same names with values made later. -/
def Bindings.later (p : Past) (bindings : Bindings) : Bindings :=
  bindings.map fun b => (b.1, b.2.later p)

namespace Bindings

variable (p : Past) (name : String) (v : Value) (bindings : Bindings)

theorem get?_later :
    (bindings.later p).get? name = (bindings.get? name).map (Value.later p) := by
  induction bindings with
  | nil => rfl
  | cons b more ih =>
    obtain ⟨n, v⟩ := b
    by_cases hn : n = name
    · simp [later, get?, hn]
    · simpa [later, get?, hn] using ih

theorem later_set :
    (bindings.set name v).later p = (bindings.later p).set name (v.later p) := by
  induction bindings with
  | nil => rfl
  | cons b more ih =>
    obtain ⟨n, w⟩ := b
    by_cases hn : n = name
    · simp [later, set, hn]
    · by_cases hlt : name < n
      · simp [later, set, hn, hlt]
      · simpa [later, set, hn, hlt] using ih

theorem holds_later : (bindings.later p).holds (v.later p) = bindings.holds v := by
  rw [holds, holds, later, List.any_map]
  congr 1
  funext b
  exact b.2.is_later p v

end Bindings

/-! ## Heaps -/

/-- A scope made later. -/
def Scope.later (p : Past) (scope : Scope) : Scope where
  bindings := scope.bindings.later p
  outer := scope.outer.map p.scope

/-- What is in a heap, made later: after what was there before. -/
def Heap.later (p : Past) (h : Heap) : Heap where
  scopes := p.heap.scopes ++ h.scopes.map (Scope.later p)
  values := p.heap.values + h.values
  evaluators := p.heap.evaluators + h.evaluators

namespace Heap

variable (p : Past) (h : Heap) (s : ScopeId)

@[simp] theorem size_later : (h.later p).scopes.size = p.scope h.scopes.size := by
  simp [later, Past.scope]

theorem getElem?_later : (h.later p).scopes[p.scope s]? = h.scopes[s]?.map (Scope.later p) := by
  simp [later, Past.scope, Array.getElem?_append_right]

theorem bindings_later : (h.later p).bindings (p.scope s) = (h.bindings s).later p := by
  unfold bindings
  rw [getElem?_later]
  cases h.scopes[s]? <;> rfl

theorem outer?_later : (h.later p).outer? (p.scope s) = (h.outer? s).map p.scope := by
  unfold outer?
  rw [getElem?_later]
  cases h.scopes[s]? <;> rfl

theorem chainFrom_later (length : Nat) :
    (h.later p).chainFrom length (p.scope s) = (h.chainFrom length s).map p.scope := by
  induction length generalizing s with
  | zero => rfl
  | succ length ih =>
    rw [chainFrom, chainFrom, outer?_later]
    cases h.outer? s with
    | none => rfl
    | some outer => exact congrArg (p.scope s :: ·) (ih outer)

/-- Values that are bound later are bound in the scopes made later. -/
theorem later_set (name : String) (v : Value) :
    (h.set s name v).later p = (h.later p).set (p.scope s) name (v.later p) := by
  have hscopes : ((h.set s name v).later p).scopes =
      ((h.later p).set (p.scope s) name (v.later p)).scopes := by
    apply Array.ext_getElem?
    intro t
    by_cases ht : t < p.heap.scopes.size
    · have hne : p.scope s ≠ t := Nat.ne_of_gt (Nat.lt_of_lt_of_le ht (Nat.le_add_right _ _))
      simp [set, later, Array.getElem?_modify, hne, Array.getElem?_append_left ht]
    · obtain ⟨u, rfl⟩ : ∃ u, t = p.scope u := Nat.exists_eq_add_of_le (Nat.le_of_not_lt ht)
      rw [getElem?_later]
      simp only [set, Array.getElem?_modify, Past.scope_inj, getElem?_later]
      split
      · cases h.scopes[u]? <;> simp [Scope.later, Bindings.later_set]
      · rfl
  simpa [later, set] using hscopes

theorem later_newScope (outer : Option ScopeId) :
    (h.newScope outer).2.later p = ((h.later p).newScope (outer.map p.scope)).2 := by
  simp [newScope, later, Scope.later, Bindings.later]

theorem later_bindAll (pairs : List (Node × Value)) :
    (h.bindAll s pairs).later p =
      (h.later p).bindAll (p.scope s)
        (pairs.map fun pair => (pair.1.later p.nodes, pair.2.later p)) := by
  induction pairs generalizing h with
  | nil => rfl
  | cons pair more ih =>
    obtain ⟨parameter, argument⟩ := pair
    simp only [List.map_cons, bindAll, Node.name?_later]
    cases parameter.name? with
    | none => exact ih h
    | some name =>
      simp only
      rw [ih, later_set]

theorem later_openCall (closure : Closure) (arguments : List Value) :
    (h.openCall closure arguments).later p =
      (h.later p).openCall (closure.later p) (arguments.map (Value.later p)) := by
  have hpairs : (closure.later p).parameters.zip (arguments.map (Value.later p)) =
      (closure.parameters.zip arguments).map
        fun pair => (pair.1.later p.nodes, pair.2.later p) := by
    rw [Closure.later, Node.laterAll_eq_map]
    exact List.zip_map ..
  rw [openCall, openCall, hpairs, later_bindAll, later_newScope, size_later]
  rfl

variable {h} (hord : ∀ s outer, h.outer? s = some outer → outer < s)

include hord

/-- Where outer scopes are older, a chain has no more scopes later than before. -/
theorem chain_later : (h.later p).chain (p.scope s) = (h.chain s).map p.scope := by
  have hs : s < p.scope s + 1 := Nat.lt_succ_of_le (Nat.le_add_left _ _)
  rw [chain, chainFrom_later, chainFrom_eq_chain hord hs]

theorem get?_later (name : String) :
    (h.later p).get? (p.scope s) name = (h.get? s name).map (Value.later p) := by
  rw [get?, get?, chain_later p s hord, List.map_findSome?, List.findSome?_map]
  congr 1
  funext t
  simp [bindings_later, Bindings.get?_later]

theorem reaches_later (v : Value) :
    (h.later p).reaches (p.scope s) (v.later p) = h.reaches s v := by
  rw [reaches, reaches, chain_later p s hord, List.any_map]
  congr 1
  funext t
  simp [holds, bindings_later, Bindings.holds_later]

end Heap

end TraceTree

import TraceTree.Value.Basic

set_option autoImplicit false

/-! # The heap of scopes

A scope binds names to values and may have an outer scope. A name is looked up along the chain of
scopes outward, so an inner binding hides an outer one. A scope is made after its outer scope, so
chains are finite; a scope may bind a closure that refers back to it.

The bindings of a scope are kept in ascending order of the names, each name once. The heap also
counts the values and evaluators made, so that each gets an identity of its own. -/

namespace TraceTree

/-- Bindings, ascending by name. -/
abbrev Bindings := List (String × Value)

namespace Bindings

/-- The value bound to a name. -/
def get? (name : String) : Bindings → Option Value
  | [] => none
  | (n, v) :: more => if n = name then some v else get? name more

/-- Bind a name to a value, in place of an earlier binding of the name. -/
def set (name : String) (value : Value) : Bindings → Bindings
  | [] => [(name, value)]
  | (n, v) :: more =>
    if n = name then (name, value) :: more
    else if name < n then (name, value) :: (n, v) :: more
    else (n, v) :: set name value more

/-- Whether some name is bound to this very value. -/
def holds (value : Value) (bindings : Bindings) : Bool := bindings.any (fun b => b.2.is value)

/-- Setting a name is seen by looking it up, and by no other look-up. -/
theorem get?_set (name : String) (value : Value) (bindings : Bindings) (other : String) :
    (bindings.set name value).get? other =
      if name = other then some value else bindings.get? other := by
  induction bindings with
  | nil => simp [set, get?]
  | cons b more ih =>
    obtain ⟨n, v⟩ := b
    simp only [set]
    split
    · next h => subst h; simp only [get?]; split <;> rfl
    · next h =>
      split
      · simp only [get?]
      · simp only [get?, ih]
        split
        · next h' => subst h'; rw [if_neg (fun e => h e.symm)]
        · rfl

end Bindings

/-- Names and their values, and the scope around. -/
structure Scope where
  bindings : Bindings
  outer : Option ScopeId

/-- All scopes made so far, and how many values and evaluators. -/
structure Heap where
  scopes : Array Scope
  values : Nat
  evaluators : Nat

namespace Heap

/-- A heap with nothing in it. -/
def empty : Heap := ⟨#[], 0, 0⟩

/-- Make a scope. -/
def newScope (h : Heap) (outer : Option ScopeId) : ScopeId × Heap :=
  (h.scopes.size, { h with scopes := h.scopes.push ⟨[], outer⟩ })

/-- An identity that no value has yet. -/
def newValue (h : Heap) : ValueId × Heap :=
  (.made h.values, { h with values := h.values + 1 })

/-- Bind a name in a scope. -/
def set (h : Heap) (s : ScopeId) (name : String) (value : Value) : Heap :=
  { h with scopes := h.scopes.modify s (fun scope =>
      { scope with bindings := Bindings.set name value scope.bindings }) }

/-- The bindings of a scope, without those of its outer scopes. -/
def bindings (h : Heap) (s : ScopeId) : Bindings :=
  match h.scopes[s]? with
  | some scope => scope.bindings
  | none => []

/-- The number of names bound in a scope itself. -/
def len (h : Heap) (s : ScopeId) : Nat := (h.bindings s).length

/-- The scope around a scope. -/
def outer? (h : Heap) (s : ScopeId) : Option ScopeId := h.scopes[s]?.bind (·.outer)

/-- A scope and the scopes around it, at most `length` of them. -/
def chainFrom (h : Heap) : Nat → ScopeId → List ScopeId
  | 0, _ => []
  | length + 1, s =>
    match h.outer? s with
    | none => [s]
    | some outer => s :: chainFrom h length outer

/-- A scope and the scopes around it, from the inside outward. An outer scope is older, so a chain
has no more scopes than were made up to its innermost. -/
def chain (h : Heap) (s : ScopeId) : List ScopeId := h.chainFrom (s + 1) s

/-- The value of a name as seen from a scope. -/
def get? (h : Heap) (s : ScopeId) (name : String) : Option Value :=
  (h.chain s).findSome? (fun t => Bindings.get? name (h.bindings t))

/-- Whether a value is bound in a scope itself. -/
def holds (h : Heap) (s : ScopeId) (value : Value) : Bool := Bindings.holds value (h.bindings s)

/-- Whether a value is bound somewhere along the chain of a scope. -/
def reaches (h : Heap) (s : ScopeId) (value : Value) : Bool :=
  (h.chain s).any (fun t => h.holds t value)

end Heap

end TraceTree

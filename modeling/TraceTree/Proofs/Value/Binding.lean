import TraceTree.Proofs.Eval.Run

set_option autoImplicit false

/-! # What scopes bind

How the operations on a heap change what a name stands for in a scope, the outer scopes left aside.
A call binds its parameters one after the other, so of two parameters with one name the last is
bound (`lastNamed`). -/

namespace TraceTree

/-- The argument for the last parameter that spells a name. -/
def lastNamed (name : String) : List (Node × Value) → Option Value
  | [] => none
  | (parameter, argument) :: more =>
    (lastNamed name more).or (if parameter.name? = some name then some argument else none)

theorem mem_of_lastNamed {name : String} {pairs : List (Node × Value)} {v : Value}
    (h : lastNamed name pairs = some v) : v ∈ pairs.map (·.2) := by
  induction pairs with
  | nil => cases h
  | cons pair more ih =>
    obtain ⟨parameter, argument⟩ := pair
    rw [lastNamed, Option.or_eq_some_iff] at h
    rcases h with h | ⟨_, h⟩
    · exact List.mem_cons_of_mem _ (ih h)
    · split at h
      · obtain rfl := Option.some.inj h
        exact List.mem_cons_self
      · cases h

namespace Heap

/-- A scope itself binds a name to a value. -/
def Binds (h : Heap) (s : ScopeId) (name : String) (v : Value) : Prop :=
  Bindings.get? name (h.bindings s) = some v

theorem bindings_set_self {h : Heap} {s : ScopeId} (hs : s < h.scopes.size) (name : String)
    (v : Value) : (h.set s name v).bindings s = Bindings.set name v (h.bindings s) := by
  unfold bindings set
  rw [Array.getElem?_modify, if_pos rfl, Array.getElem?_eq_getElem hs]
  rfl

theorem bindings_set_of_ne {h : Heap} {s t : ScopeId} (ht : t ≠ s) (name : String) (v : Value) :
    (h.set s name v).bindings t = h.bindings t := by
  unfold bindings set
  rw [Array.getElem?_modify, if_neg ht.symm]

theorem bindings_of_size_le {h : Heap} {s : ScopeId} (hs : h.scopes.size ≤ s) :
    h.bindings s = [] := by
  unfold bindings
  rw [Array.getElem?_eq_none hs]

theorem bindings_newScope (h : Heap) (outer : Option ScopeId) (t : ScopeId) :
    (h.newScope outer).2.bindings t = h.bindings t := by
  unfold bindings newScope
  rw [Array.getElem?_push]
  by_cases ht : t = h.scopes.size
  · rw [if_pos ht, ht, Array.getElem?_eq_none (Nat.le_refl _)]
  · rw [if_neg ht]

theorem binds_set_self {h : Heap} {s : ScopeId} (hs : s < h.scopes.size) (name : String)
    (v : Value) : (h.set s name v).Binds s name v := by
  rw [Binds, bindings_set_self hs, Bindings.get?_set, if_pos rfl]

/-- Setting a name in a scope changes what the scope binds this name to, and nothing else. -/
theorem binds_set {h : Heap} {s : ScopeId} (hs : s < h.scopes.size) {name : String} {v : Value}
    {t : ScopeId} {name' : String} {v' : Value} :
    (h.set s name v).Binds t name' v' ↔
      if t = s ∧ name' = name then v' = v else h.Binds t name' v' := by
  by_cases ht : t = s
  · subst ht
    rw [Binds, bindings_set_self hs, Bindings.get?_set]
    by_cases hname : name' = name
    · rw [if_pos hname.symm, if_pos ⟨rfl, hname⟩]
      exact ⟨fun heq => (Option.some.inj heq).symm, fun heq => congrArg some heq.symm⟩
    · rw [if_neg fun heq => hname heq.symm, if_neg fun heq => hname heq.2]
      rfl
  · rw [Binds, bindings_set_of_ne ht, if_neg fun heq => ht heq.1]
    rfl

/-- What a scope binds after a name is set was set or was bound before. -/
theorem Binds.of_set {h : Heap} {s t : ScopeId} {name name' : String} {v v' : Value}
    (hb : (h.set s name v).Binds t name' v') : v' = v ∨ h.Binds t name' v' := by
  by_cases hs : s < h.scopes.size
  · rw [binds_set hs] at hb
    split at hb
    · exact Or.inl hb
    · exact Or.inr hb
  · by_cases ht : t = s
    · subst ht
      rw [Binds, bindings_of_size_le (by rw [size_set]; exact Nat.le_of_not_lt hs)] at hb
      cases hb
    · rw [Binds, bindings_set_of_ne ht] at hb
      exact Or.inr hb

theorem bindings_bindAll_of_ne {h : Heap} {s t : ScopeId} (ht : t ≠ s)
    (pairs : List (Node × Value)) : (h.bindAll s pairs).bindings t = h.bindings t := by
  induction pairs generalizing h with
  | nil => rfl
  | cons pair more ih =>
    rw [bindAll]
    split
    · rw [ih, bindings_set_of_ne ht]
    · exact ih

theorem get?_bindings_bindAll {h : Heap} {s : ScopeId} (hs : s < h.scopes.size) (name : String)
    (pairs : List (Node × Value)) :
    Bindings.get? name ((h.bindAll s pairs).bindings s) =
      (lastNamed name pairs).or (Bindings.get? name (h.bindings s)) := by
  induction pairs generalizing h with
  | nil => rfl
  | cons pair more ih =>
    obtain ⟨parameter, argument⟩ := pair
    rw [bindAll, lastNamed, Option.or_assoc]
    cases hname : parameter.name? with
    | none => rw [ih hs, if_neg (by simp), Option.none_or]
    | some other =>
      simp only
      rw [ih (by rw [size_set]; exact hs), bindings_set_self hs, Bindings.get?_set]
      by_cases heq : other = name
      · rw [if_pos heq, if_pos (by rw [heq]), Option.some_or]
      · rw [if_neg heq, if_neg (by simpa using heq), Option.none_or]

/-- The scope of a call binds its parameters and nothing else. -/
theorem get?_bindings_openCall (h : Heap) (closure : Closure) (arguments : List Value)
    (name : String) :
    Bindings.get? name ((h.openCall closure arguments).bindings h.scopes.size) =
      lastNamed name (closure.parameters.zip arguments) := by
  have hsize : h.scopes.size < (h.newScope (some closure.scope)).2.scopes.size := by
    unfold newScope
    rw [Array.size_push]
    exact Nat.lt_succ_self _
  rw [openCall, get?_bindings_bindAll hsize, bindings_newScope,
    bindings_of_size_le (Nat.le_refl _)]
  exact Option.or_none

/-- A call binds the parameters in a new scope and changes no other. -/
theorem binds_openCall {h : Heap} {closure : Closure} {arguments : List Value} {t : ScopeId}
    {name : String} {v : Value} :
    (h.openCall closure arguments).Binds t name v ↔
      if t = h.scopes.size then lastNamed name (closure.parameters.zip arguments) = some v
      else h.Binds t name v := by
  split
  · next ht =>
    rw [ht, Binds, get?_bindings_openCall]
  · next ht =>
    rw [Binds, openCall, bindings_bindAll_of_ne ht, bindings_newScope]
    rfl

theorem Binds.of_openCall {h : Heap} {closure : Closure} {arguments : List Value} {t : ScopeId}
    {name : String} {v : Value} (hb : (h.openCall closure arguments).Binds t name v) :
    lastNamed name (closure.parameters.zip arguments) = some v ∨ h.Binds t name v := by
  rw [binds_openCall] at hb
  split at hb
  · exact Or.inl hb
  · exact Or.inr hb

/-- A name is found in the nearest scope that binds it. -/
theorem get?_eq_some_iff {h : Heap} {s : ScopeId} {name : String} {v : Value} :
    h.get? s name = some v ↔ ∃ inner t outer, h.chain s = inner ++ t :: outer ∧ h.Binds t name v ∧
      ∀ u ∈ inner, ∀ w, ¬ h.Binds u name w := by
  rw [get?, List.findSome?_eq_some_iff]
  simp only [Binds, Option.eq_none_iff_forall_ne_some, ne_eq]

theorem get?_eq_none_iff {h : Heap} {s : ScopeId} {name : String} :
    h.get? s name = none ↔ ∀ t ∈ h.chain s, ∀ v, ¬ h.Binds t name v := by
  rw [get?, List.findSome?_eq_none_iff]
  simp only [Binds, Option.eq_none_iff_forall_ne_some, ne_eq]

/-- A name that is found is bound in some scope. -/
theorem exists_binds_of_get? {h : Heap} {s : ScopeId} {name : String} {v : Value}
    (hv : h.get? s name = some v) : ∃ t, h.Binds t name v := by
  obtain ⟨_, t, _, _, ht, _⟩ := get?_eq_some_iff.mp hv
  exact ⟨t, ht⟩

end Heap

end TraceTree

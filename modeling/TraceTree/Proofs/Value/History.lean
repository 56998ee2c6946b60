import Mathlib.Data.List.Dedup
import Mathlib.Data.List.Induction
import TraceTree.Proofs.Eval.Allocation
import TraceTree.Proofs.Text.Order

set_option autoImplicit false

/-! # What scopes hold after a history of changes

Scopes are made, within others or as outermost ones, and names are set in them. What is looked up
afterwards can be said in terms of these changes alone (`Heap.Recalls`): a name stands for the value
that it was last set to in the nearest scope where it was ever set, and a scope reaches the values
that some name was last set to in a scope of its chain, hidden names included, but none that was
replaced. -/

namespace TraceTree

/-! ## Bindings in order -/

namespace Bindings

variable {bindings : Bindings} {name : String} {v : Value}

/-- The names ascend, so none of them is there twice. -/
def Ascending (bindings : Bindings) : Prop := bindings.Pairwise fun a b => a.1 < b.1

theorem eq_or_mem_of_mem_set {b : String × Value} (h : b ∈ set name v bindings) :
    b = (name, v) ∨ b ∈ bindings := by
  induction bindings with
  | nil => exact Or.inl (List.mem_singleton.mp h)
  | cons c more ih =>
    obtain ⟨n, w⟩ := c
    simp only [set] at h
    split at h
    · rcases List.mem_cons.mp h with rfl | h
      · exact Or.inl rfl
      · exact Or.inr (List.mem_cons_of_mem _ h)
    · split at h
      · exact List.mem_cons.mp h
      · rcases List.mem_cons.mp h with rfl | h
        · exact Or.inr List.mem_cons_self
        · exact (ih h).imp_right (List.mem_cons_of_mem _)

theorem Ascending.set (h : Ascending bindings) (name : String) (v : Value) :
    Ascending (set name v bindings) := by
  induction bindings with
  | nil => exact List.pairwise_singleton _ _
  | cons b more ih =>
    obtain ⟨n, w⟩ := b
    obtain ⟨hfirst, hmore⟩ := List.pairwise_cons.mp h
    simp only [Bindings.set]
    by_cases hsame : n = name
    · subst hsame
      rw [if_pos rfl]
      exact List.pairwise_cons.mpr ⟨hfirst, hmore⟩
    · rw [if_neg hsame]
      by_cases hlt : name < n
      · rw [if_pos hlt]
        refine List.pairwise_cons.mpr ⟨fun c hc => ?_, h⟩
        rcases List.mem_cons.mp hc with rfl | hc
        · exact hlt
        · exact lt_trans hlt (hfirst c hc)
      · rw [if_neg hlt]
        refine List.pairwise_cons.mpr ⟨fun c hc => ?_, ih hmore⟩
        rcases eq_or_mem_of_mem_set hc with rfl | hc
        · exact lt_of_le_of_ne (not_lt.mp hlt) hsame
        · exact hfirst c hc

theorem Ascending.mem_iff (h : Ascending bindings) :
    (name, v) ∈ bindings ↔ get? name bindings = some v := by
  induction bindings with
  | nil => simp [get?]
  | cons b more ih =>
    obtain ⟨n, w⟩ := b
    obtain ⟨hfirst, hmore⟩ := List.pairwise_cons.mp h
    rw [get?, List.mem_cons, ih hmore]
    by_cases hsame : n = name
    · subst hsame
      have hnot : ¬ get? n more = some v := by
        rw [← ih hmore]
        exact fun hmem => lt_irrefl n (hfirst (n, v) hmem)
      simp [hnot, eq_comm]
    · simp [hsame, Ne.symm hsame]

theorem Ascending.nodup (h : Ascending bindings) : (bindings.map (·.1)).Nodup :=
  List.pairwise_map.mpr (h.imp ne_of_lt)

theorem holds_iff : holds v bindings = true ↔ ∃ b ∈ bindings, b.2.id = v.id := by
  simp [holds, Value.is]

end Bindings

namespace Heap

/-! ## Histories -/

/-- One change of the scopes of a heap. -/
inductive Change where
  /-- A scope is made, around which is another one or none. -/
  | scope (outer : Option ScopeId)
  /-- A name is set in a scope. -/
  | set (s : ScopeId) (name : String) (value : Value)

/-- The heap with a change made to it. -/
def change (h : Heap) : Change → Heap
  | .scope outer => (h.newScope outer).2
  | .set s name value => h.set s name value

/-- The heap after some changes, made one after the other from the beginning. -/
def after (changes : List Change) : Heap := changes.foldl change empty

/-- The scopes that were made, in order, each given by the scope around it. -/
def outers (changes : List Change) : List (Option ScopeId) :=
  changes.filterMap fun
    | .scope outer => some outer
    | .set _ _ _ => none

/-- The names that were set in a scope itself, in order. -/
def namesSet (changes : List Change) (s : ScopeId) : List String :=
  changes.filterMap fun
    | .scope _ => none
    | .set t name _ => if t = s then some name else none

/-- Each change is about scopes that were made before it. -/
inductive Possible : List Change → Prop where
  | nil : Possible []
  | scope {changes : List Change} {outer : Option ScopeId} (before : Possible changes)
      (made : ∀ s ∈ outer, s < (outers changes).length) : Possible (changes ++ [.scope outer])
  | set {changes : List Change} {s : ScopeId} {name : String} {value : Value}
      (before : Possible changes) (made : s < (outers changes).length) :
      Possible (changes ++ [.set s name value])

/-- The last time that a name was set in a scope itself, it was set to this value. -/
def LastSet (changes : List Change) (s : ScopeId) (name : String) (v : Value) : Prop :=
  ∃ earlier later, changes = earlier ++ .set s name v :: later ∧ ∀ w, .set s name w ∉ later

/-- A scope and the scopes around it, from the inside outward to one that nothing is around. -/
inductive Enclosing (changes : List Change) : ScopeId → List ScopeId → Prop where
  | outermost {s : ScopeId} (made : (outers changes)[s]? = some none) : Enclosing changes s [s]
  | within {s outer : ScopeId} {more : List ScopeId} (made : (outers changes)[s]? = some (some outer))
      (around : Enclosing changes outer more) : Enclosing changes s (s :: more)

variable {changes : List Change} {s t : ScopeId} {name : String} {v w : Value}

theorem after_concat (changes : List Change) (c : Change) :
    after (changes ++ [c]) = (after changes).change c := by
  simp [after]

theorem outers_concat_scope (changes : List Change) (outer : Option ScopeId) :
    outers (changes ++ [.scope outer]) = outers changes ++ [outer] := by
  simp [outers]

theorem outers_concat_set (changes : List Change) (s : ScopeId) (name : String) (v : Value) :
    outers (changes ++ [.set s name v]) = outers changes := by
  simp [outers]

/-! ## The scopes that were made -/

theorem size_after (changes : List Change) :
    (after changes).scopes.size = (outers changes).length := by
  induction changes using List.reverseRecOn with
  | nil => rfl
  | append_singleton changes c ih =>
    rw [after_concat]
    cases c with
    | scope outer => simp [change, newScope, outers_concat_scope, ih]
    | set s name v => simp [change, outers_concat_set, ih]

theorem outer?_after (changes : List Change) (s : ScopeId) :
    (after changes).outer? s = (outers changes)[s]?.join := by
  induction changes using List.reverseRecOn with
  | nil => simp [after, outers, empty, outer?]
  | append_singleton changes c ih =>
    rw [after_concat]
    cases c with
    | scope outer =>
      rw [change, outer?_newScope, size_after, outers_concat_scope]
      by_cases hnew : s = (outers changes).length
      · simp [hnew]
      · rw [if_neg hnew, ih, List.getElem?_append]
        by_cases hs : s < (outers changes).length
        · rw [if_pos hs]
        · have hbeyond : (outers changes).length < s :=
            Nat.lt_of_le_of_ne (Nat.le_of_not_lt hs) (Ne.symm hnew)
          rw [if_neg hs, List.getElem?_eq_none (Nat.le_of_lt hbeyond),
            List.getElem?_eq_none (Nat.sub_pos_of_lt hbeyond)]
    | set t name v => rw [change, outer?_set, outers_concat_set, ih]

/-- The scope around a scope was made before it. -/
theorem Possible.outer_lt (h : Possible changes) :
    ∀ s outer, (after changes).outer? s = some outer → outer < s := by
  induction h with
  | nil => simp [after, empty, outer?]
  | @scope changes new _ hmade ih =>
    intro s outer houter
    rw [outer?_after, outers_concat_scope, List.getElem?_append] at houter
    by_cases hs : s < (outers changes).length
    · rw [if_pos hs, ← outer?_after] at houter
      exact ih s outer houter
    · rw [if_neg hs, Option.join_eq_some_iff, List.getElem?_singleton] at houter
      split at houter
      · exact Nat.lt_of_lt_of_le (hmade outer (Option.some.inj houter)) (Nat.le_of_not_lt hs)
      · cases houter
  | set _ _ ih =>
    intro s outer houter
    rw [outer?_after, outers_concat_set, ← outer?_after] at houter
    exact ih s outer houter

/-- Chains lead outward to a scope that nothing is around, and pass no scope twice. -/
theorem Possible.chain_after (h : Possible changes) :
    ∀ s, s < (outers changes).length → Enclosing changes s ((after changes).chain s) ∧
      ((after changes).chain s).Pairwise (· > ·) ∧ ∀ t ∈ (after changes).chain s, t ≤ s := by
  intro s
  induction s using Nat.strong_induction_on with
  | _ s ih =>
    intro hs
    have houter := outer?_after changes s
    rw [List.getElem?_eq_getElem hs, Option.join_some] at houter
    cases hmade : (outers changes)[s] with
    | none =>
      rw [hmade] at houter
      have hchain : (after changes).chain s = [s] := by rw [chain, chainFrom, houter]
      rw [hchain]
      exact ⟨.outermost (by rw [List.getElem?_eq_getElem hs, hmade]), List.pairwise_singleton _ _,
        List.forall_mem_singleton.mpr (Nat.le_refl s)⟩
    | some outer =>
      rw [hmade] at houter
      have hlt := h.outer_lt s outer houter
      obtain ⟨haround, hdescends, hle⟩ := ih outer hlt (Nat.lt_trans hlt hs)
      rw [chain_of_outer? h.outer_lt houter]
      refine ⟨.within (by rw [List.getElem?_eq_getElem hs, hmade]) haround,
        List.pairwise_cons.mpr ⟨fun t ht => Nat.lt_of_le_of_lt (hle t ht) hlt, hdescends⟩, ?_⟩
      exact List.forall_mem_cons.mpr
        ⟨Nat.le_refl s, fun t ht => Nat.le_trans (hle t ht) (Nat.le_of_lt hlt)⟩

/-! ## What was set last -/

theorem lastSet_concat {c : Change} : LastSet (changes ++ [c]) s name v ↔
    c = .set s name v ∨ (LastSet changes s name v ∧ ∀ w, c ≠ .set s name w) := by
  constructor
  · rintro ⟨earlier, later, heq, hnone⟩
    rcases List.eq_nil_or_concat later with rfl | ⟨later, d, rfl⟩
    · exact Or.inl (List.append_inj_right' heq rfl |> List.singleton_inj.mp)
    · rw [List.concat_eq_append] at heq hnone
      rw [← List.cons_append, ← List.append_assoc] at heq
      obtain ⟨rfl, hd⟩ := List.append_inj' heq rfl
      obtain rfl := List.singleton_inj.mp hd
      refine Or.inr ⟨⟨earlier, later, rfl, fun w hw => hnone w (List.mem_append_left _ hw)⟩, ?_⟩
      exact fun w hw => hnone w (by simp [hw])
  · rintro (rfl | ⟨⟨earlier, later, rfl, hnone⟩, hc⟩)
    · exact ⟨changes, [], rfl, fun w => List.not_mem_nil⟩
    · refine ⟨earlier, later ++ [c], by simp, fun w hw => ?_⟩
      rcases List.mem_append.mp hw with hw | hw
      · exact hnone w hw
      · exact hc w (List.mem_singleton.mp hw).symm

/-- A name that was ever set was set to something last. -/
theorem exists_lastSet_iff : (∃ v, LastSet changes s name v) ↔ ∃ v, .set s name v ∈ changes := by
  induction changes using List.reverseRecOn with
  | nil => simp [LastSet]
  | append_singleton changes c ih =>
    simp only [lastSet_concat, List.mem_append, List.mem_singleton, exists_or]
    by_cases hc : ∃ w, c = .set s name w
    · obtain ⟨w, rfl⟩ := hc
      simp
    · have hne : ∀ w, c ≠ .set s name w := fun w hw => hc ⟨w, hw⟩
      simp [hne, ih, fun w => Ne.symm (hne w)]

theorem mem_namesSet : name ∈ namesSet changes s ↔ ∃ v, .set s name v ∈ changes := by
  rw [namesSet, List.mem_filterMap]
  constructor
  · rintro ⟨c, hc, hname⟩
    cases c with
    | scope outer => cases hname
    | set t other v =>
      dsimp only at hname
      split at hname
      · next ht =>
        rw [← Option.some.inj hname, ← ht]
        exact ⟨v, hc⟩
      · cases hname
  · rintro ⟨v, hv⟩
    exact ⟨_, hv, if_pos rfl⟩

/-- **A scope binds a name** to the value that it was last set to there. -/
theorem Possible.binds_after (h : Possible changes) :
    (after changes).Binds s name v ↔ LastSet changes s name v := by
  induction h with
  | nil => simp [after, empty, Binds, bindings, Bindings.get?, LastSet]
  | @scope changes outer _ _ ih =>
    rw [after_concat, lastSet_concat, ← ih]
    simp [change, Binds, bindings_newScope]
  | @set changes t other u _ hmade ih =>
    rw [← size_after] at hmade
    rw [after_concat, lastSet_concat, ← ih, change, binds_set hmade]
    by_cases hsame : s = t ∧ name = other
    · obtain ⟨rfl, rfl⟩ := hsame
      simp [eq_comm]
    · rw [if_neg hsame]
      have hne : ∀ w, (Change.set t other u) ≠ .set s name w := by
        intro w hw
        obtain ⟨rfl, rfl, -⟩ := Change.set.inj hw
        exact hsame ⟨rfl, rfl⟩
      simp [hne]

theorem ascending_after (changes : List Change) (s : ScopeId) :
    Bindings.Ascending ((after changes).bindings s) := by
  induction changes using List.reverseRecOn with
  | nil => exact List.Pairwise.nil
  | append_singleton changes c ih =>
    rw [after_concat]
    cases c with
    | scope outer => rwa [change, bindings_newScope]
    | set t name v =>
      rw [change]
      by_cases ht : t = s
      · subst ht
        by_cases hmade : t < (after changes).scopes.size
        · rw [bindings_set_self hmade]
          exact ih.set name v
        · rw [bindings_of_size_le (by simpa using hmade)]
          exact List.Pairwise.nil
      · rwa [bindings_set_of_ne (Ne.symm ht)]

theorem Possible.mem_bindings (h : Possible changes) :
    (name, v) ∈ (after changes).bindings s ↔ LastSet changes s name v := by
  rw [(ascending_after changes s).mem_iff]
  exact h.binds_after

/-- As many names are bound in a scope as different ones were set there. -/
theorem Possible.len_after (h : Possible changes) (s : ScopeId) :
    (after changes).len s = (namesSet changes s).dedup.length := by
  have hsame : (((after changes).bindings s).map (·.1)).Perm (namesSet changes s).dedup := by
    refine (List.perm_ext_iff_of_nodup (ascending_after changes s).nodup (List.nodup_dedup _)).mpr
      fun name => ?_
    rw [List.mem_dedup, mem_namesSet, ← exists_lastSet_iff]
    simp [h.mem_bindings]
  rw [len, ← hsame.length_eq, List.length_map]

/-! ## What is looked up -/

/-- What can be looked up in the scopes of a heap follows from the changes made to it. -/
structure Recalls (h : Heap) (changes : List Change) : Prop where
  /-- A chain goes outward to its end and passes no scope twice. -/
  chain : ∀ s < (outers changes).length, Enclosing changes s (h.chain s) ∧ (h.chain s).Nodup
  /-- A name is found with the value last set in the nearest scope where it was ever set. -/
  found : ∀ s name v, h.get? s name = some v ↔ ∃ inner t outer, h.chain s = inner ++ t :: outer ∧
    LastSet changes t name v ∧ ∀ u ∈ inner, ∀ w, .set u name w ∉ changes
  /-- A name is not found where it was set in no scope of the chain. -/
  missing : ∀ s name, h.get? s name = none ↔ ∀ t ∈ h.chain s, ∀ w, .set t name w ∉ changes
  /-- The bindings ascend in the order of the bytes of their names. -/
  ascending : ∀ s, (h.bindings s).Pairwise fun a b => Text.bytes a.1 < Text.bytes b.1
  /-- A binding has the value that its name was last set to in the scope itself. -/
  bindings : ∀ s name v, (name, v) ∈ h.bindings s ↔ LastSet changes s name v
  /-- There is one binding for each name that was set in the scope itself. -/
  len : ∀ s, (h.bindings s).length = h.len s ∧ h.len s = (namesSet changes s).dedup.length
  /-- A value is reached if a name was last set to this very value somewhere on the chain. -/
  reaches : ∀ s v, h.reaches s v = true ↔
    ∃ t ∈ h.chain s, ∃ name w, LastSet changes t name w ∧ w.id = v.id

/-- **What is looked up follows from the history,** whatever scopes were made and whatever was set in
them. -/
theorem Possible.recalls_after (h : Possible changes) : (after changes).Recalls changes where
  chain := by
    intro s hs
    obtain ⟨hchain, hdescends, -⟩ := h.chain_after s hs
    exact ⟨hchain, hdescends.imp Nat.ne_of_gt⟩
  found := by
    intro s name v
    rw [get?_eq_some_iff]
    simp only [h.binds_after, ← not_exists, exists_lastSet_iff]
  missing := by
    intro s name
    rw [get?_eq_none_iff]
    simp only [h.binds_after, ← not_exists, exists_lastSet_iff]
  ascending := by
    intro s
    exact (ascending_after changes s).imp Text.lt_iff_bytes.mp
  bindings := by
    intro s name v
    exact h.mem_bindings
  len := by
    intro s
    exact ⟨rfl, h.len_after s⟩
  reaches := by
    intro s v
    simp only [reaches, holds, List.any_eq_true, Bindings.holds_iff, Prod.exists, h.mem_bindings]

/-- A scope within another, in both of which `x` is set, in the inner one twice. -/
def hidingHistory : List Change :=
  [.scope none, .set 0 "x" (.integer (.made 0) 1), .scope (some 0),
    .set 1 "x" (.integer (.made 1) 2), .set 1 "x" (.integer (.made 2) 3)]

/-- The inner scope reaches the hidden value, but not the one that was replaced. -/
theorem recalls_after_hidingHistory :
    Possible hidingHistory ∧ (after hidingHistory).Recalls hidingHistory ∧
      (after hidingHistory).reaches 1 (.integer (.made 0) 1) = true ∧
      (after hidingHistory).reaches 1 (.integer (.made 1) 2) = false := by
  have possible : Possible hidingHistory :=
    .set (.set (.scope (.set (.scope .nil (by simp)) (by decide)) (by decide)) (by decide))
      (by decide)
  exact ⟨possible, possible.recalls_after, by decide, by decide⟩

end Heap

end TraceTree

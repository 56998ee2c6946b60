import TraceTree.Proofs.Eval.Allocation

set_option autoImplicit false

/-! # What an evaluation writes

Closures refer to arbitrary scopes, and a function that is called runs inside the scope it was
defined in. Still an evaluation writes only into the scope it runs in and into scopes that it makes:
a `let` binds in the scope of its own node, and parameters are bound in the new scope of the call.
So of the scopes there were before, all but one keep their bindings, whether the evaluation ends with
a value, with a fault or not at all (`Machine.writesOnly_eval`). -/

namespace TraceTree

/-- A later state of a heap: of the scopes there were, only `s` has been written, and it has lost no
name. -/
structure Heap.WritesOnly (s : ScopeId) (h h' : Heap) : Prop extends h.Extends h' where
  bindings_eq : ∀ t, t < h.scopes.size → t ≠ s → h'.bindings t = h.bindings t
  binds : ∀ name v, h.Binds s name v → ∃ v', h'.Binds s name v'

namespace Heap

variable {h h' : Heap} {s t : ScopeId} {name : String} {v : Value}

theorem Binds.lt_size (hb : h.Binds s name v) : s < h.scopes.size := by
  refine Nat.lt_of_not_le fun hs => ?_
  rw [Binds, bindings_of_size_le hs] at hb
  cases hb

/-- A name that is bound stays bound when a name is set. -/
theorem Binds.set (hb : h.Binds s name v) (t : ScopeId) (other : String) (u : Value) :
    ∃ v', (h.set t other u).Binds s name v' := by
  by_cases ht : s = t
  · subst ht
    by_cases hname : name = other
    · exact ⟨u, (binds_set hb.lt_size).mpr (by rw [if_pos ⟨rfl, hname⟩])⟩
    · exact ⟨v, (binds_set hb.lt_size).mpr (by rwa [if_neg fun heq => hname heq.2])⟩
  · refine ⟨v, ?_⟩
    rwa [Binds, bindings_set_of_ne ht]

namespace WritesOnly

theorem refl (s : ScopeId) (h : Heap) : h.WritesOnly s h :=
  { Extends.refl h with
    bindings_eq := fun _ _ _ => rfl
    binds := fun _ v hb => ⟨v, hb⟩ }

/-- A value that is made is no binding. -/
theorem newValue (hw : h.WritesOnly s h') : h.WritesOnly s h'.newValue.2 :=
  { hw with }

/-- A name may be set in the scope itself and in scopes that are new. -/
theorem set (hw : h.WritesOnly s h') (ht : t = s ∨ h.scopes.size ≤ t) (name : String) (v : Value) :
    h.WritesOnly s (h'.set t name v) where
  size_le := by rw [size_set]; exact hw.size_le
  outer?_eq := fun u hu => by rw [outer?_set]; exact hw.outer?_eq u hu
  bindings_eq := by
    intro u hu hne
    have hut : u ≠ t := by
      rintro rfl
      rcases ht with ht | ht
      · exact hne ht
      · exact Nat.not_le_of_lt hu ht
    rw [bindings_set_of_ne hut, hw.bindings_eq u hu hne]
  binds := by
    intro other u hb
    obtain ⟨u', hb'⟩ := hw.binds other u hb
    exact hb'.set t name v

/-- The scope of a call is new. -/
theorem openCall (hw : h.WritesOnly s h') (closure : Closure) (arguments : List Value) :
    h.WritesOnly s (h'.openCall closure arguments) where
  toExtends := hw.toExtends.trans (extends_openCall _ _ _)
  bindings_eq := by
    intro u hu hne
    have hold : u ≠ h'.scopes.size := Nat.ne_of_lt (Nat.lt_of_lt_of_le hu hw.size_le)
    rw [Heap.openCall, bindings_bindAll_of_ne hold, bindings_newScope, hw.bindings_eq u hu hne]
  binds := by
    intro other u hb
    obtain ⟨u', hb'⟩ := hw.binds other u hb
    refine ⟨u', binds_openCall.mpr ?_⟩
    rwa [if_neg (Nat.ne_of_lt hb'.lt_size)]

end WritesOnly

end Heap

/-! ## Runs -/

section

variable {h : Heap} {s : ScopeId}

/-- The end of a node writes into the scope of the node at most. -/
theorem Node.Ends.writesOnly {m : Machine} {n : Node} {done : List (Option Value)}
    {scope : ScopeId} {result : Option Value × Machine} (hends : n.Ends m done scope result)
    (hw : h.WritesOnly s m.heap) (hscope : scope = s ∨ h.scopes.size ≤ scope) :
    h.WritesOnly s result.2.heap := by
  cases hends with
  | keep held => exact hw
  | make fresh => exact hw.newValue
  | bind node parts named proper => exact hw.set hscope _ _

namespace Config

variable {c c' : Config}

/-- What every run in the scope `s` keeps: of the scopes of `h`, only `s` has been written, and only
`s` is in use. -/
structure Confined (h : Heap) (s : ScopeId) (c : Config) : Prop where
  writes : h.WritesOnly s c.machine.heap
  frames : ∀ f ∈ c.frames, f.scope = s ∨ h.scopes.size ≤ f.scope
  asked : ∀ node scope, c.control = .enter node scope → scope = s ∨ h.scopes.size ≤ scope

/-- **A step writes into the scope that it runs in at most,** or into a scope that it makes. -/
theorem Step.confined (hstep : c.Step c') (hc : c.Confined h s) : c'.Confined h s := by
  cases hstep with
  | @enter m node scope frames allowed =>
    refine ⟨hc.writes, ?_, fun _ _ hcontrol => (by cases hcontrol)⟩
    exact List.forall_mem_cons.mpr ⟨hc.asked node scope rfl, hc.frames⟩
  | @visit m f rest part move =>
    refine ⟨hc.writes, hc.frames, ?_⟩
    intro node scope hcontrol
    obtain ⟨_, rfl⟩ := Control.enter.inj hcontrol
    exact hc.frames f List.mem_cons_self
  | @call m f rest closure arguments move =>
    refine ⟨hc.writes.openCall closure arguments, hc.frames, ?_⟩
    intro node scope hcontrol
    obtain ⟨_, rfl⟩ := Control.enter.inj hcontrol
    exact Or.inr hc.writes.size_le
  | @finish m f rest ending move =>
    obtain ⟨hscope, hrest⟩ := List.forall_mem_cons.mp hc.frames
    have hwrites := (Node.ends_of_move move f.scope).writesOnly hc.writes hscope
    cases rest with
    | nil => exact ⟨hwrites, hrest, fun _ _ hcontrol => (by cases hcontrol)⟩
    | cons g rest =>
      obtain ⟨houter, hrest⟩ := List.forall_mem_cons.mp hrest
      refine ⟨hwrites, ?_, fun _ _ hcontrol => (by cases hcontrol)⟩
      exact List.forall_mem_cons.mpr ⟨houter, hrest⟩

theorem Reaches.confined {m : Machine} {root : Node} (hreach : (start m root s).Reaches c) :
    c.Confined m.heap s := by
  induction hreach with
  | refl =>
    refine ⟨.refl s m.heap, fun _ hf => absurd hf List.not_mem_nil, ?_⟩
    intro node scope hcontrol
    obtain ⟨_, rfl⟩ := Control.enter.inj hcontrol
    exact Or.inl rfl
  | tail _ hstep ih => exact hstep.confined ih

end Config

end

/-- **An evaluation writes only into the scope it runs in.** Whatever is evaluated, on whatever heap
and with whatever limit, and however it ends: every other scope that was there keeps its bindings,
the scope itself loses no name, and the scopes around scopes stay the same. -/
theorem Machine.writesOnly_eval (m : Machine) (node : Node) (scope : ScopeId) :
    m.heap.WritesOnly scope (m.eval node scope).2.heap := by
  obtain ⟨c, hreach, hheap, _⟩ := m.eval_reaches node scope
  rw [hheap]
  exact (Config.Reaches.confined hreach).writes

end TraceTree

import TraceTree.Proofs.Trace.Nesting

set_option autoImplicit false

/-! # Every open node was asked for

A node is entered because the node around it asks for it, as one of its fields or as the body of a
function. While it is open the node around it waits, so in every moment of a run each frame is what
the next move of the frame around it asks for (`Config.Recorded.linked`). What a node does once it is
handed a value can thus be read off the move with which it asked. -/

namespace TraceTree

/-- What a frame does next is to evaluate this node in this scope, as one of its fields or as the
body of a function in a scope of its own. -/
def Frame.Asks (null : Value) (g : Frame) (node : Node) (scope : ScopeId) : Prop :=
  (g.node.move null g.done = .visit node ∧ scope = g.scope) ∨
    ∃ closure arguments, g.node.move null g.done = .call closure arguments ∧
      node = closure.body ∧ g.scope ≠ scope

/-- What every run keeps: each frame is what the one around it asks for. -/
structure Config.Linked (c : Config) : Prop where
  frames : c.frames.IsChain (fun f g => g.Asks c.machine.null f.node f.scope)
  asked : ∀ node scope g rest, c.control = .enter node scope → c.frames = g :: rest →
    g.Asks c.machine.null node scope

namespace Config

variable {c c' : Config} {m : Machine} {root : Node} {rootScope : ScopeId}

theorem Step.linked (hstep : c.Step c')
    (hlt : ∀ f ∈ c.frames, f.scope < c.machine.heap.scopes.size) (h : c.Linked) : c'.Linked := by
  have hnull := hstep.null_eq
  cases hstep with
  | @enter m node scope frames allowed =>
    refine ⟨?_, fun _ _ _ _ hc => (by cases hc)⟩
    rw [hnull]
    cases frames with
    | nil => exact List.isChain_singleton _
    | cons g rest =>
      exact List.isChain_cons_cons.mpr ⟨h.asked node scope g rest rfl rfl, h.frames⟩
  | @visit m f rest part move =>
    refine ⟨h.frames, ?_⟩
    rintro node scope g others hcontrol hframes
    obtain ⟨rfl, rfl⟩ := Control.enter.inj hcontrol
    obtain ⟨rfl, rfl⟩ := List.cons.inj hframes
    exact Or.inl ⟨move, rfl⟩
  | @call m f rest closure arguments move =>
    refine ⟨h.frames, ?_⟩
    rintro node scope g others hcontrol hframes
    obtain ⟨rfl, rfl⟩ := Control.enter.inj hcontrol
    obtain ⟨rfl, rfl⟩ := List.cons.inj hframes
    exact Or.inr ⟨closure, arguments, move, rfl, Nat.ne_of_lt (hlt f List.mem_cons_self)⟩
  | @finish m f rest ending move =>
    rw [machine_deliver] at hnull
    have hrest : rest.IsChain (fun f g => g.Asks m.null f.node f.scope) :=
      List.IsChain.tail h.frames
    cases rest with
    | nil => exact ⟨List.isChain_nil, fun _ _ _ _ hc => (by cases hc)⟩
    | cons g rest =>
      refine ⟨?_, fun _ _ _ _ hc => (by cases hc)⟩
      rw [machine_deliver, hnull]
      cases rest with
      | nil => exact List.isChain_singleton _
      | cons g' rest =>
        obtain ⟨hasks, hchain⟩ := List.isChain_cons_cons.mp hrest
        exact List.isChain_cons_cons.mpr ⟨hasks, hchain⟩

theorem Recorded.linked (h : c.Recorded m root rootScope) : c.Linked := by
  refine h.induct ⟨List.isChain_nil, ?_⟩ fun _ _ hrec hlinked hstep =>
    hstep.linked hrec.nested.frames_lt hlinked
  intro _ _ _ _ _ hframes
  cases hframes

/-- A node that goes on has just been entered, or the part that it asked for has just been left with
the value that it was handed. -/
def Handed (c : Config) : Prop :=
  c.control = .advance → ∀ f rest, c.frames = f :: rest →
    f.done = [] ∨ ∃ done value step node scope, f.done = done ++ [value] ∧
      c.machine.events.getLast? = some (.exit step node scope value) ∧
      Frame.Asks c.machine.null { f with done := done } node scope

theorem Step.handed (ht : c.machine.tracing = true) (hlinked : c.Linked) (hstep : c.Step c') :
    c'.Handed := by
  have hnull := hstep.null_eq
  cases hstep with
  | enter allowed =>
    intro _ f rest hframes
    rw [← (List.cons.inj hframes).1]
    exact Or.inl rfl
  | visit move => exact fun hcontrol => by cases hcontrol
  | call move => exact fun hcontrol => by cases hcontrol
  | @finish m f others ending move =>
    intro _ g rest hframes
    right
    cases others with
    | nil => cases hframes
    | cons around outer =>
      obtain ⟨rfl, rfl⟩ := List.cons.inj hframes
      refine ⟨around.done, _, m.events.length, f.node, f.scope, rfl, ?_, ?_⟩
      · rw [machine_deliver, Machine.events_finish ht, List.getLast?_concat]
      · rw [hnull]
        exact (List.isChain_cons_cons.mp hlinked.frames).1

theorem Recorded.handed (h : c.Recorded m root rootScope) : c.Handed :=
  h.induct (fun hcontrol => by cases hcontrol) fun _ _ hrec _ hstep =>
    hstep.handed hrec.tracing_eq hrec.linked

end Config

end TraceTree

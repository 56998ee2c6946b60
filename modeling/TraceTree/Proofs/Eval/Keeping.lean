import TraceTree.Proofs.Eval.Allocation

set_option autoImplicit false

/-! # Properties of values that evaluations keep

Every value of an evaluation is a constant of its evaluator, was made by a node, or came out of a
wrapper, and it goes from one node to another unchanged. So a property of values that holds of what
nodes make and that wrapping and unwrapping keep (`Value.Kept`) holds of every value a run ever has
to do with: those that scopes bind, those of the open nodes, those in the trace and the one that the
root ends with (`Config.Holds`). Of what scopes bind a run keeps more, since a fault is not bound. -/

namespace TraceTree

/-- What it takes for evaluations to keep `P` of all their values, and `Bound` of those that scopes
bind. Neither a wrapper nor a scope gets a fault. -/
structure Value.Kept (P Bound : Value → Prop) : Prop where
  constant : ∀ number constant, P (constantOf number constant)
  integer : ∀ serial n, P (.integer (.made serial) n)
  fault : ∀ serial fault, P (.error (.made serial) fault)
  function : ∀ serial closure, P (.function (.made serial) closure)
  wrapper : ∀ serial v, P v → v.isError = false → P (.returned (.made serial) v)
  unwrapped : ∀ v, P v → P v.unwrapped
  binding : ∀ v, P v → v.isError = false → Bound v
  bound : ∀ v, Bound v → P v

/-- The values of a configuration. -/
inductive Config.Holds (c : Config) (v : Value) : Prop where
  | bound {s : ScopeId} {name : String} (binds : c.machine.heap.Binds s name v)
  | part {f : Frame} (frame : f ∈ c.frames) (mem : some v ∈ f.done)
  | event {e : Event} (mem : e ∈ c.machine.events) (leaves : e.value? = some v)
  | result (control : c.control = .stop (some v))

/-- All values of a configuration have one property, and those that scopes bind another one. -/
structure Config.Upholds (P Bound : Value → Prop) (c : Config) : Prop where
  bound : ∀ s name v, c.machine.heap.Binds s name v → Bound v
  held : ∀ v, c.Holds v → P v

/-! ## What is recorded -/

namespace Machine

variable {m : Machine} {node : Node} {scope : ScopeId} {v : Value} {e : Event}

/-- The record of an entry has no value in it. -/
theorem mem_events_of_enter (he : e ∈ (m.enter node scope).events) (hv : e.value? = some v) :
    e ∈ m.events := by
  cases ht : m.tracing with
  | false => simpa [events, enter, ht] using he
  | true =>
    rw [events_enter ht, List.mem_append] at he
    rcases he with hold | hnew
    · exact hold
    · rw [List.mem_singleton.mp hnew] at hv
      cases hv

/-- The record of an exit has the value that the node ends with. -/
theorem mem_events_of_leave {value : Option Value} (he : e ∈ (m.leave node scope value).events)
    (hv : e.value? = some v) : e ∈ m.events ∨ value = some v := by
  cases ht : m.tracing with
  | false => exact Or.inl (by simpa [events, leave, ht] using he)
  | true =>
    rw [events_leave ht, List.mem_append] at he
    rcases he with hold | hnew
    · exact Or.inl hold
    · rw [List.mem_singleton.mp hnew] at hv
      exact Or.inr hv

end Machine

/-! ## Steps -/

section

variable {P Bound : Value → Prop} (hkept : Value.Kept P Bound)

include hkept

section

variable {m : Machine} {n : Node} {done : List (Option Value)} {scope : ScopeId}
  (hbound : ∀ s name v, m.heap.Binds s name v → Bound v) (hdone : ∀ v, some v ∈ done → P v)

include hdone

theorem Value.Kept.getD {v : Option Value} (mem : v ∈ done) : P (v.getD m.null) := by
  cases v with
  | none => exact hkept.constant m.number .null
  | some v => exact hdone v mem

theorem Node.Fresh.kept {v : Value} (hfresh : n.Fresh m done scope v) : P v := by
  cases hfresh with
  | integer value => exact hkept.integer _ value
  | fault fault => exact hkept.fault _ fault
  | wrapper mem proper => exact hkept.wrapper _ _ (hkept.getD hdone mem) proper
  | function node => exact hkept.function _ _

include hbound

theorem Node.Held.kept {v : Value} (hheld : Node.Held m done (some v)) : P v := by
  cases hheld with
  | constant constant => exact hkept.constant _ constant
  | part mem => exact hdone v mem
  | unwrapped mem => exact hkept.unwrapped _ (hdone _ mem)
  | bound binds => exact hkept.bound v (hbound _ _ v binds)

/-- The end of a node keeps the properties of values. -/
theorem Node.Ends.kept {result : Option Value × Machine} (hends : n.Ends m done scope result) :
    (∀ s name v, result.2.heap.Binds s name v → Bound v) ∧ ∀ v, result.1 = some v → P v := by
  cases hends with
  | keep held =>
    refine ⟨hbound, ?_⟩
    rintro v rfl
    exact held.kept hkept hbound hdone
  | make fresh =>
    refine ⟨hbound, ?_⟩
    intro v hv
    rw [← Option.some.inj hv]
    exact fresh.kept hkept hdone
  | bind node parts named proper =>
    refine ⟨?_, fun v hv => (by cases hv)⟩
    intro s name v hv
    rcases Heap.Binds.of_set hv with rfl | hold
    · refine hkept.binding _ (hkept.getD hdone ?_) proper
      rw [parts]
      exact List.mem_cons_self
    · exact hbound s name v hold

end

namespace Config

variable {c c' : Config}

/-- The values of a configuration, by where they are. -/
theorem Upholds.of_held (hbound : ∀ s name v, c.machine.heap.Binds s name v → Bound v)
    (hparts : ∀ f ∈ c.frames, ∀ v, some v ∈ f.done → P v)
    (hevents : ∀ e ∈ c.machine.events, ∀ v, e.value? = some v → P v)
    (hresult : ∀ v, c.control = .stop (some v) → P v) : c.Upholds P Bound := by
  refine ⟨hbound, fun v hv => ?_⟩
  cases hv with
  | bound binds => exact hkept.bound v (hbound _ _ v binds)
  | part frame mem => exact hparts _ frame v mem
  | event mem leaves => exact hevents _ mem v leaves
  | result control => exact hresult v control

/-- **A step keeps the properties of values.** -/
theorem Step.upholds (hstep : c.Step c') (h : c.Upholds P Bound) : c'.Upholds P Bound := by
  obtain ⟨hbound, hheld⟩ := h
  cases hstep with
  | @enter m node scope frames allowed =>
    refine .of_held hkept hbound ?_ ?_ (fun v hv => by cases hv)
    · exact List.forall_mem_cons.mpr
        ⟨fun _ hv => absurd hv List.not_mem_nil, fun f hf v hv => hheld v (.part hf hv)⟩
    · exact fun e he v hv => hheld v (.event (Machine.mem_events_of_enter he hv) hv)
  | @visit m f rest part move =>
    exact .of_held hkept hbound (fun g hg v hv => hheld v (.part hg hv))
      (fun e he v hv => hheld v (.event he hv)) fun v hv => (by cases hv)
  | @call m f rest closure arguments move =>
    obtain ⟨_, _, _, function, others, _, hdone, _, hargs, _, hproper, _⟩ :=
      Node.of_move_eq_call move
    refine .of_held hkept ?_ (fun g hg v hv => hheld v (.part hg hv))
      (fun e he v hv => hheld v (.event he hv)) fun v hv => (by cases hv)
    intro s name v hv
    rcases Heap.Binds.of_openCall hv with hlast | hold
    · -- what a parameter is bound to is the value of an argument, and this is no fault
      obtain ⟨pair, hpair, rfl⟩ := List.mem_map.mp (mem_of_lastNamed hlast)
      have harg : pair.2 ∈ arguments := (List.of_mem_zip hpair).2
      rw [hargs] at harg
      obtain ⟨x, hx, heq⟩ := List.mem_map.mp harg
      have hparts : ∀ u, some u ∈ f.done → P u := fun u hu => hheld u (.part List.mem_cons_self hu)
      have hmem : x ∈ f.done := by
        rw [hdone]
        exact List.mem_cons_of_mem _ hx
      rw [← heq]
      exact hkept.binding _ (hkept.getD hparts hmem) (hproper x hx)
    · exact hbound s name v hold
  | @finish m f rest ending move =>
    obtain ⟨hbound', hvalue⟩ := (Node.ends_of_move move f.scope).kept hkept hbound
      fun v hv => hheld v (.part List.mem_cons_self hv)
    refine .of_held hkept ?_ ?_ ?_ ?_
    · rw [machine_deliver]
      exact hbound'
    · intro g hg v hv
      obtain ⟨f', hf', _, _, hparts⟩ := of_mem_deliver hg
      rcases hparts v hv with hnew | hold
      · exact hvalue v hnew
      · exact hheld v (.part (List.mem_cons_of_mem _ hf') hold)
    · rw [machine_deliver]
      intro e he v hv
      rcases Machine.mem_events_of_leave he hv with hold | hnew
      · rw [Ending.events_apply] at hold
        exact hheld v (.event hold hv)
      · exact hvalue v hnew
    · cases rest with
      | nil =>
        intro v hv
        exact hvalue v (Control.stop.inj hv)
      | cons g rest => exact fun v hv => (by cases hv)

/-- **Every moment of a run keeps the properties of values.** -/
theorem Reaches.upholds (hreach : c.Reaches c') (h : c.Upholds P Bound) : c'.Upholds P Bound := by
  induction hreach with
  | refl => exact h
  | tail _ hstep ih => exact hstep.upholds hkept ih

/-- Where nothing is recorded yet, the values at the start are those that scopes bind. -/
theorem upholds_start {m : Machine} (hevents : m.events = [])
    (hbound : ∀ s name v, m.heap.Binds s name v → Bound v) (root : Node) (scope : ScopeId) :
    (start m root scope).Upholds P Bound := by
  refine .of_held hkept hbound (fun f hf => absurd hf List.not_mem_nil) ?_ fun v hv => (by cases hv)
  intro e he
  rw [start, hevents] at he
  exact absurd he List.not_mem_nil

end Config

end

end TraceTree

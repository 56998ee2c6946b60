import TraceTree.Proofs.Eval.Move
import TraceTree.Proofs.Eval.Run
import TraceTree.Proofs.Value.Binding

set_option autoImplicit false

/-! # Identities

Nodes and values are told apart by their identities alone, which is right as long as nothing else
has the same one. `arena` says which node a number stands for, and a list of the values made so far
says which value a serial number stands for. An evaluation whose tree and whose scopes keep to both
makes values that keep to them (`Config.Recorded.identified`). -/

namespace TraceTree

/-! ## Nodes and values that keep to their identities -/

/-- A node is another one or below it. -/
inductive Node.Within (n : Node) : Node → Prop where
  | self : Within n n
  | child {m part : Node} (within : Within n m) (mem : part ∈ m.children) : Within n part

/-- A node and all nodes below it are what their numbers stand for. -/
def Node.Known (arena : NodeId → Option Node) (n : Node) : Prop :=
  ∀ m, n.Within m → arena m.id = some m

theorem Node.Within.trans {n m k : Node} (h : n.Within m) (h' : m.Within k) : n.Within k := by
  induction h' with
  | self => exact h
  | child _ mem ih => exact ih.child mem

theorem Node.Within.eq_or_child {n m : Node} (h : n.Within m) :
    m = n ∨ ∃ part ∈ n.children, part.Within m := by
  induction h with
  | self => exact Or.inl rfl
  | @child _ part _ mem ih =>
    right
    rcases ih with rfl | ⟨first, hfirst, hwithin⟩
    · exact ⟨part, mem, .self⟩
    · exact ⟨first, hfirst, hwithin.child mem⟩

theorem Node.Known.child {arena : NodeId → Option Node} {n part : Node} (h : n.Known arena)
    (mem : part ∈ n.children) : part.Known arena :=
  fun m hm => h m ((Within.self.child mem).trans hm)

/-- Nodes among which all their children are as well are known if their numbers stand for them. -/
theorem Node.known_of_mem {arena : NodeId → Option Node} {nodes : List Node}
    (h : ∀ n ∈ nodes, arena n.id = some n ∧ n.children ⊆ nodes) {n : Node} (hn : n ∈ nodes) :
    n.Known arena := by
  intro m hm
  have hmem : m ∈ nodes := by
    induction hm with
    | self => exact hn
    | child _ mem ih => exact (h _ ih).2 mem
  exact (h m hmem).1

/-- The constant that an identity stands for. -/
def constantOf (evaluator : Nat) : Constant → Value
  | .boolean b => .boolean (.shared evaluator (.boolean b)) b
  | .null => .null (.shared evaluator .null)

/-- The value that an identity stands for, among those made so far. -/
def ValueId.value? (made : List Value) : ValueId → Option Value
  | .made serial => made[serial]?
  | .shared evaluator constant => some (constantOf evaluator constant)

/-- A value and the values that it wraps. -/
def Value.layers : Value → List Value
  | returned id inner => returned id inner :: inner.layers
  | v => [v]

/-- A value and those that it wraps are what their identities stand for, and so are the nodes in the
bodies of their functions. -/
structure Value.Registered (arena : NodeId → Option Node) (made : List Value) (v : Value) :
    Prop where
  layer : ∀ u ∈ v.layers, u.id.value? made = some u
  body : ∀ u ∈ v.layers, ∀ id closure, u = .function id closure → closure.body.Known arena

/-- All values that the scopes bind are registered. -/
def Heap.Registered (arena : NodeId → Option Node) (made : List Value) (h : Heap) : Prop :=
  made.length = h.values ∧ ∀ s name v, h.Binds s name v → v.Registered arena made

section

variable {arena : NodeId → Option Node} {made made' : List Value} {v : Value}

theorem ValueId.value?_mono (h : made <+: made') {id : ValueId} (hv : id.value? made = some v) :
    id.value? made' = some v := by
  cases id with
  | made serial =>
    obtain ⟨more, rfl⟩ := h
    have hlt := (List.getElem?_eq_some_iff.mp hv).1
    show (made ++ more)[serial]? = some v
    rw [List.getElem?_append_left hlt]
    exact hv
  | shared evaluator constant => exact hv

theorem Value.Registered.mono (h : made <+: made') (hv : v.Registered arena made) :
    v.Registered arena made' :=
  ⟨fun u hu => ValueId.value?_mono h (hv.layer u hu), hv.body⟩

theorem Value.layers_eq (v : Value) : v.layers = v :: v.layers.tail := by
  cases v <;> rfl

theorem Value.mem_layers (v : Value) : v ∈ v.layers := by
  rw [v.layers_eq]
  exact List.mem_cons_self

theorem Value.layers_trans {u w : Value} (hu : u ∈ v.layers) (hw : w ∈ u.layers) :
    w ∈ v.layers := by
  induction v with
  | returned id inner ih =>
    rcases List.mem_cons.mp hu with rfl | hu
    · exact hw
    · exact List.mem_cons_of_mem _ (ih hu)
  | _ =>
    obtain rfl := List.mem_singleton.mp hu
    exact hw

/-- A value that is made gets the next serial number. -/
theorem Value.registered_concat (hid : v.id = .made made.length)
    (htail : ∀ u ∈ v.layers.tail, u.id.value? made = some u)
    (hbody : ∀ u ∈ v.layers, ∀ id closure, u = .function id closure → closure.body.Known arena) :
    v.Registered arena (made ++ [v]) := by
  refine ⟨?_, hbody⟩
  intro u hu
  rw [v.layers_eq] at hu
  rcases List.mem_cons.mp hu with rfl | hu
  · rw [hid]
    exact List.getElem?_concat_length
  · exact ValueId.value?_mono (List.prefix_append _ _) (htail u hu)

/-- A value that is no function and wraps none has no bodies in it. -/
theorem Value.body_of_single (hlayers : v.layers = [v])
    (hv : ∀ id closure, v ≠ .function id closure) :
    ∀ u ∈ v.layers, ∀ id closure, u = .function id closure → closure.body.Known arena := by
  intro u hu id closure hfunction
  rw [hlayers] at hu
  rw [List.mem_singleton.mp hu] at hfunction
  exact absurd hfunction (hv id closure)

/-- The constants of an evaluator are registered from the start. -/
theorem Value.registered_constant (evaluator : Nat) (constant : Constant) :
    (constantOf evaluator constant).Registered arena made := by
  cases constant with
  | boolean b =>
    refine ⟨fun u hu => ?_, Value.body_of_single rfl fun _ _ h => (by cases h)⟩
    rw [List.mem_singleton.mp hu]
    rfl
  | null =>
    refine ⟨fun u hu => ?_, Value.body_of_single rfl fun _ _ h => (by cases h)⟩
    rw [List.mem_singleton.mp hu]
    rfl

theorem Value.registered_boolean (m : Machine) (b : Bool) : (m.boolean b).Registered arena made :=
  Value.registered_constant m.number (.boolean b)

theorem Value.registered_null (m : Machine) : m.null.Registered arena made :=
  Value.registered_constant m.number .null

theorem Value.Registered.unwrapped (hv : v.Registered arena made) :
    v.unwrapped.Registered arena made := by
  cases v with
  | returned id w =>
    exact ⟨fun u hu => hv.layer u (List.mem_cons_of_mem _ hu),
      fun u hu => hv.body u (List.mem_cons_of_mem _ hu)⟩
  | _ => exact hv

end

/-! ## What evaluations make -/

section

variable {arena : NodeId → Option Node} {made : List Value} {m : Machine}

/-- A value that the evaluator makes is registered as the next one. -/
theorem Machine.registered_make (hheap : m.heap.Registered arena made) {content : ValueId → Value}
    (hid : ∀ id, (content id).id = id)
    (htail : ∀ id, ∀ u ∈ (content id).layers.tail, u.id.value? made = some u)
    (hbody : ∀ id, ∀ u ∈ (content id).layers, ∀ id' closure, u = .function id' closure →
      closure.body.Known arena) :
    ∃ made', made <+: made' ∧ (m.make content).2.heap.Registered arena made' ∧
      (m.make content).1.Registered arena made' := by
  obtain ⟨hlen, hbound⟩ := hheap
  have hnew : (m.make content).1.Registered arena (made ++ [(m.make content).1]) := by
    refine Value.registered_concat ?_ (htail _) (hbody _)
    rw [hlen]
    exact hid _
  refine ⟨_, List.prefix_append _ _, ⟨?_, ?_⟩, hnew⟩
  · rw [List.length_append, hlen]
    rfl
  · exact fun s name v hv => (hbound s name v hv).mono (List.prefix_append _ _)

/-- **What a node ends with is registered,** and so is what the scopes bind then. -/
theorem Ending.registered_apply {ending : Ending} {n : Node} {done : List (Option Value)}
    (hheap : m.heap.Registered arena made) (hnode : n.Known arena)
    (hdone : ∀ v, some v ∈ done → v.Registered arena made)
    (hmove : n.move m.null done = .finish ending) (scope : ScopeId) :
    ∃ made', made <+: made' ∧ (ending.apply scope m).2.heap.Registered arena made' ∧
      ∀ u, (ending.apply scope m).1 = some u → u.Registered arena made' := by
  have hvalue : ∀ v, v ∈ done → (v.getD m.null).Registered arena made := by
    intro v hv
    cases v with
    | none => exact Value.registered_null m
    | some v => exact hdone v hv
  -- a value that is there already changes nothing
  have hsame : ∀ v : Option Value, (∀ u, v = some u → u.Registered arena made) →
      ∃ made', made <+: made' ∧ m.heap.Registered arena made' ∧
        ∀ u, v = some u → u.Registered arena made' :=
    fun v hv => ⟨made, List.prefix_rfl, hheap, hv⟩
  have hsome : ∀ v : Value, v.Registered arena made →
      ∃ made', made <+: made' ∧ m.heap.Registered arena made' ∧
        ∀ u, some v = some u → u.Registered arena made' := by
    intro v hv
    refine hsame (some v) fun u hu => ?_
    rw [← Option.some.inj hu]
    exact hv
  -- a value that is made is the next one
  have hmake : ∀ content : ValueId → Value, (∀ id, (content id).id = id) →
      (∀ id, ∀ u ∈ (content id).layers.tail, u.id.value? made = some u) →
      (∀ id, ∀ u ∈ (content id).layers, ∀ id' closure, u = .function id' closure →
        closure.body.Known arena) →
      ∃ made', made <+: made' ∧ ((m.make content).map some id).2.heap.Registered arena made' ∧
        ∀ u, ((m.make content).map some id).1 = some u → u.Registered arena made' := by
    intro content hid htail hbody
    obtain ⟨made', hprefix, hheap', hnew⟩ := Machine.registered_make hheap hid htail hbody
    refine ⟨made', hprefix, hheap', fun u hu => ?_⟩
    rw [← Option.some.inj hu]
    exact hnew
  have herror : ∀ fault : Fault, ∃ made', made <+: made' ∧
      ((m.make (.error · fault)).map some id).2.heap.Registered arena made' ∧
        ∀ u, ((m.make (.error · fault)).map some id).1 = some u → u.Registered arena made' := by
    intro fault
    exact hmake _ (fun _ => rfl) (fun _ u hu => absurd hu List.not_mem_nil)
      fun _ => Value.body_of_single rfl fun _ _ h => (by cases h)
  cases Node.endsWith_of_move hmove with
  | nothing => exact hsame none fun u hu => (by cases hu)
  | null => exact hsome m.null (Value.registered_null m)
  | @fault v mem error => exact hsome (v.getD m.null) (hvalue v mem)
  | @part v mem kind =>
    refine hsame v fun u hu => hdone u ?_
    rw [← hu]
    exact mem
  | @unwrapped v mem => exact hsome (v.getD m.null).unwrapped (hvalue v mem).unwrapped
  | @wrap id operand v more node parts =>
    have hv : (v.getD m.null).Registered arena made :=
      hvalue v (by rw [parts]; exact List.mem_cons_self)
    refine hmake _ (fun _ => rfl) (fun _ u hu => hv.layer u hu) ?_
    intro id' u hu id'' closure hf
    rcases List.mem_cons.mp hu with rfl | hu
    · cases hf
    · exact hv.body u hu id'' closure hf
  | @bind id target operand v more node parts =>
    have hv : (v.getD m.null).Registered arena made :=
      hvalue v (by rw [parts]; exact List.mem_cons_self)
    rw [Ending.apply]
    split
    · refine ⟨made, List.prefix_rfl, ⟨hheap.1, ?_⟩, fun u hu => (by cases hu)⟩
      intro s name u hu
      rcases Heap.Binds.of_set hu with rfl | hold
      · exact hv
      · exact hheap.2 s name u hold
    · exact hsame none fun u hu => (by cases hu)
  | @lookUp name =>
    rw [Ending.apply]
    split
    · next v hget =>
      obtain ⟨t, ht⟩ := Heap.exists_binds_of_get? hget
      exact hsome v (hheap.2 t name v ht)
    · exact herror _
  | @close id parameters body node =>
    refine hmake _ (fun _ => rfl) (fun _ u hu => absurd hu List.not_mem_nil) ?_
    intro id' u hu id'' closure hf
    rw [List.mem_singleton.mp hu] at hf
    obtain ⟨_, rfl⟩ := Value.function.inj hf
    rw [node] at hnode
    exact hnode.child (List.mem_append_right _ List.mem_cons_self)
  | @result r =>
    cases r with
    | integer n =>
      exact hmake _ (fun _ => rfl) (fun _ u hu => absurd hu List.not_mem_nil)
        fun _ => Value.body_of_single rfl fun _ _ h => (by cases h)
    | boolean b => exact hsome (m.boolean b) (Value.registered_boolean m b)
    | fault fault => exact herror fault

end

/-! ## Runs -/

namespace Config

/-- What every run keeps: the scopes, the parts of the open nodes and the values of the exits are
registered, and the nodes are known. -/
structure Identified (arena : NodeId → Option Node) (made : List Value) (c : Config) : Prop where
  heap : c.machine.heap.Registered arena made
  done : ∀ f ∈ c.frames, ∀ v, some v ∈ f.done → v.Registered arena made
  events : ∀ e ∈ c.machine.events, ∀ v, e.value? = some v → v.Registered arena made
  frames : ∀ f ∈ c.frames, f.node.Known arena
  asked : ∀ node scope, c.control = .enter node scope → node.Known arena

variable {arena : NodeId → Option Node} {made : List Value} {c c' : Config}

/-- **A step adds to the values made so far.** -/
theorem Step.identified (ht : c.machine.tracing = true) (hstep : c.Step c')
    (h : c.Identified arena made) : ∃ made', made <+: made' ∧ c'.Identified arena made' := by
  cases hstep with
  | @enter m node scope frames allowed =>
    refine ⟨made, List.prefix_rfl, h.heap, ?_, ?_, ?_, fun _ _ hc => (by cases hc)⟩
    · exact List.forall_mem_cons.mpr ⟨fun _ hv => absurd hv List.not_mem_nil, h.done⟩
    · exact Machine.forall_events_enter ht h.events nofun
    · exact List.forall_mem_cons.mpr ⟨h.asked node scope rfl, h.frames⟩
  | @visit m f rest part move =>
    refine ⟨made, List.prefix_rfl, h.heap, h.done, h.events, h.frames, ?_⟩
    intro node scope hcontrol
    obtain ⟨rfl, _⟩ := Control.enter.inj hcontrol
    obtain ⟨walk, hwalk, hpart, _⟩ := Node.walk_of_visit move
    exact (h.frames f List.mem_cons_self).child
      ((Node.sublist_children_of_mem_walks hwalk).subset (List.mem_of_getElem? hpart))
  | @call m f rest closure arguments move =>
    obtain ⟨id, callee, operands, function, others, _, hdone, _, hargs, _, _, id', hfunction⟩ :=
      Node.of_move_eq_call move
    have hpart : ∀ v, some v ∈ f.done → v.Registered arena made := h.done f List.mem_cons_self
    rw [hdone] at hpart
    refine ⟨made, List.prefix_rfl, ⟨?_, ?_⟩, h.done, h.events, h.frames, ?_⟩
    · show made.length = (m.heap.openCall closure arguments).values
      rw [Heap.values_openCall]
      exact h.heap.1
    · intro s name v hv
      rcases Heap.Binds.of_openCall hv with hlast | hold
      · -- a parameter is bound to an argument, which is a part of the call or null
        obtain ⟨pair, hpair, rfl⟩ := List.mem_map.mp (mem_of_lastNamed hlast)
        have harg : pair.2 ∈ arguments := (List.of_mem_zip hpair).2
        rw [hargs] at harg
        obtain ⟨x, hx, hvalue⟩ := List.mem_map.mp harg
        rw [← hvalue]
        cases x with
        | none => exact Value.registered_null m
        | some v => exact hpart v (List.mem_cons_of_mem _ hx)
      · exact h.heap.2 s name v hold
    · intro node scope hcontrol
      obtain ⟨rfl, _⟩ := Control.enter.inj hcontrol
      cases function with
      | none => exact absurd hfunction (by simp [Machine.null])
      | some v =>
        obtain rfl : v = .function id' closure := hfunction
        exact (hpart _ List.mem_cons_self).body _ List.mem_cons_self _ _ rfl
  | @finish m f rest ending move =>
    obtain ⟨made', hprefix, hheap, hvalue⟩ := Ending.registered_apply h.heap
      (h.frames f List.mem_cons_self) (h.done f List.mem_cons_self) move f.scope
    refine ⟨made', hprefix, ?_, ?_, ?_, ?_, ?_⟩
    · rw [machine_deliver]
      exact hheap
    · intro g hg v hv
      obtain ⟨f', hf', _, _, hparts⟩ := of_mem_deliver hg
      rcases hparts v hv with hnew | hold
      · exact hvalue v hnew
      · exact (h.done f' (List.mem_cons_of_mem _ hf') v hold).mono hprefix
    · rw [machine_deliver]
      exact Machine.forall_events_finish ht (fun e he v hv => (h.events e he v hv).mono hprefix) hvalue
    · intro g hg
      obtain ⟨f', hf', hnode, _⟩ := of_mem_deliver hg
      rw [hnode]
      exact h.frames f' (List.mem_cons_of_mem _ hf')
    · exact fun _ _ hcontrol => absurd hcontrol control_deliver_ne_enter

/-- The values of a recorded run are registered. -/
theorem Recorded.identified {m : Machine} {root : Node} {scope : ScopeId}
    (h : c.Recorded m root scope) (hheap : m.heap.Registered arena made)
    (hroot : root.Known arena) : ∃ made', c.Identified arena made' := by
  refine h.induct (P := fun c => ∃ made', c.Identified arena made') ?_ ?_
  · refine ⟨made, hheap, fun _ hf => absurd hf List.not_mem_nil, ?_,
      fun _ hf => absurd hf List.not_mem_nil, ?_⟩
    · show ∀ e ∈ m.events, _
      rw [h.events_eq]
      exact fun _ he => absurd he List.not_mem_nil
    · intro node scope hcontrol
      obtain ⟨rfl, _⟩ := Control.enter.inj hcontrol
      exact hroot
  · rintro c₁ c₂ hrec ⟨made₁, hid⟩ hstep
    obtain ⟨made₂, _, hid'⟩ := hstep.identified hrec.tracing_eq hid
    exact ⟨made₂, hid'⟩

end Config

end TraceTree

import TraceTree.Proofs.Eval.Identity

set_option autoImplicit false

/-! # What an evaluation allocates

A heap is sound if each scope is younger than the scope around it and if no bound value refers to a
scope or to a serial number that was not given out yet (`Heap.Sound`). Evaluations keep heaps sound,
and this is what makes the chain of a scope a fact about the program: the scopes around a scope are
fixed when it is made, and the chain of the scope of a call is that of the function it calls.

`Node.Ends` says once what the end of a node can do to the evaluator, and where the value it ends
with comes from. -/

namespace TraceTree

/-! ## What a node ends with -/

/-- A value that was there before the node ended. -/
inductive Node.Held (m : Machine) (done : List (Option Value)) : Option Value → Prop where
  | nothing : Held m done none
  | constant (constant : Constant) : Held m done (some (constantOf m.number constant))
  | part {v : Option Value} (mem : v ∈ done) : Held m done v
  | unwrapped {v : Value} (mem : some v ∈ done) : Held m done (some v.unwrapped)
  | bound {s : ScopeId} {name : String} {v : Value} (binds : m.heap.Binds s name v) :
      Held m done (some v)

/-- A value that is made when the node ends, with the next serial number. -/
inductive Node.Fresh (m : Machine) (n : Node) (done : List (Option Value)) (scope : ScopeId) :
    Value → Prop where
  | integer (value : Int64) : Fresh m n done scope (.integer (.made m.heap.values) value)
  | fault (fault : Fault) : Fresh m n done scope (.error (.made m.heap.values) fault)
  | wrapper {v : Option Value} (mem : v ∈ done) (proper : (v.getD m.null).isError = false) :
      Fresh m n done scope (.returned (.made m.heap.values) (v.getD m.null))
  | function {id : NodeId} {parameters : List Node} {body : Node}
      (node : n = .functionLiteral id parameters body) :
      Fresh m n done scope (.function (.made m.heap.values) ⟨parameters, body, scope⟩)

/-- What the end of a node can do: keep the evaluator as it is, make one value, or bind the name of
a `let` to the value of its operand. -/
inductive Node.Ends (m : Machine) (n : Node) (done : List (Option Value)) (scope : ScopeId) :
    Option Value × Machine → Prop where
  | keep {v : Option Value} (held : Held m done v) : Ends m n done scope (v, m)
  | make {v : Value} (fresh : n.Fresh m done scope v) :
      Ends m n done scope (some v, { m with heap := m.heap.newValue.2 })
  | bind {id : NodeId} {target operand : Node} {name : String} {v : Option Value}
      {more : List (Option Value)} (node : n = .letStatement id target operand)
      (parts : done = v :: more) (named : target.name? = some name)
      (proper : (v.getD m.null).isError = false) :
      Ends m n done scope (none, { m with heap := m.heap.set scope name (v.getD m.null) })

section

variable {m : Machine} {n : Node} {done : List (Option Value)} {ending : Ending}

theorem Node.held_getD {v : Option Value} (mem : v ∈ done) :
    Node.Held m done (some (v.getD m.null)) := by
  cases v with
  | none => exact .constant .null
  | some v => exact .part mem

theorem Node.held_unwrapped {v : Option Value} (mem : v ∈ done) :
    Node.Held m done (some (v.getD m.null).unwrapped) := by
  cases v with
  | none => exact .constant .null
  | some v => exact .unwrapped mem

/-- Where a node ends otherwise than with the value it was handed, this is no fault. -/
theorem Move.isError_of_unlessError {value : Value} {move : Move}
    (h : Move.unlessError value move = .finish ending) (hne : ending ≠ .value (some value)) :
    value.isError = false := by
  rcases Move.unlessError_eq h with ⟨_, hfault⟩ | ⟨hproper, _⟩
  · exact absurd (Move.finish.inj hfault) hne
  · exact hproper

/-- A name is bound to no fault. -/
theorem Node.isError_of_move_bind {null : Value} {target : Node} {v : Value}
    (hmove : n.move null done = .finish (.bind target v)) : v.isError = false := by
  cases Node.endsWith_of_move hmove with
  | bind node parts =>
    rw [node, parts] at hmove
    exact Move.isError_of_unlessError hmove nofun

/-- No fault is wrapped. -/
theorem Node.isError_of_move_wrap {null v : Value} (hmove : n.move null done = .finish (.wrap v)) :
    v.isError = false := by
  cases Node.endsWith_of_move hmove with
  | wrap node parts =>
    rw [node, parts] at hmove
    exact Move.isError_of_unlessError hmove nofun

/-- **How a node ends.** -/
theorem Node.ends_of_move (hmove : n.move m.null done = .finish ending) (scope : ScopeId) :
    n.Ends m done scope (ending.apply scope m) := by
  cases Node.endsWith_of_move hmove with
  | nothing => exact .keep .nothing
  | null => exact .keep (.constant .null)
  | fault mem error => exact .keep (held_getD mem)
  | part mem kind => exact .keep (.part mem)
  | unwrapped mem => exact .keep (held_unwrapped mem)
  | @wrap id operand v more node parts =>
    refine .make (.wrapper ?_ (isError_of_move_wrap hmove))
    rw [parts]
    exact List.mem_cons_self
  | @bind id target operand v more node parts =>
    rw [Ending.apply]
    split
    · next name hname => exact .bind node parts hname (isError_of_move_bind hmove)
    · exact .keep .nothing
  | @lookUp name =>
    rw [Ending.apply]
    split
    · next v hget =>
      obtain ⟨s, hs⟩ := Heap.exists_binds_of_get? hget
      exact .keep (.bound hs)
    · exact .make (.fault _)
  | close node => exact .make (.function node)
  | @result r =>
    cases r with
    | integer value => exact .make (.integer value)
    | boolean b => exact .keep (.constant (.boolean b))
    | fault fault => exact .make (.fault fault)

end

/-! ## Sound heaps -/

/-- Neither a value nor one that it wraps refers to a scope or to a serial number that the heap has
not given out yet. -/
def Value.BelongsTo (h : Heap) (v : Value) : Prop :=
  ∀ u ∈ v.layers, (∀ serial, u.id = .made serial → serial < h.values) ∧
    ∀ id closure, u = .function id closure → closure.scope < h.scopes.size

/-- Outer scopes are older, and what the scopes bind belongs to the heap. -/
structure Heap.Sound (h : Heap) : Prop where
  outer_lt : ∀ s outer, h.outer? s = some outer → outer < s
  bound : ∀ s name v, h.Binds s name v → v.BelongsTo h

namespace Value

variable {h h' : Heap} {v : Value}

theorem BelongsTo.mono (hvalues : h.values ≤ h'.values)
    (hscopes : h.scopes.size ≤ h'.scopes.size) (hv : v.BelongsTo h) : v.BelongsTo h' :=
  fun u hu => ⟨fun serial hid => Nat.lt_of_lt_of_le ((hv u hu).1 serial hid) hvalues,
    fun id closure heq => Nat.lt_of_lt_of_le ((hv u hu).2 id closure heq) hscopes⟩

theorem belongsTo_constant (h : Heap) (number : Nat) (constant : Constant) :
    (constantOf number constant).BelongsTo h := by
  cases constant <;>
    exact fun u hu => by
      rw [List.mem_singleton.mp hu]
      exact ⟨fun _ hid => (by cases hid), fun _ _ heq => (by cases heq)⟩

theorem BelongsTo.unwrapped (hv : v.BelongsTo h) : v.unwrapped.BelongsTo h := by
  cases v with
  | returned id w => exact fun u hu => hv u (List.mem_cons_of_mem _ hu)
  | _ => exact hv

/-- A value with the next serial number belongs to the heap once the number is given out. -/
theorem belongsTo_newValue (hid : v.id = .made h.values)
    (htail : ∀ u ∈ v.layers.tail, Value.BelongsTo h u)
    (hscope : ∀ id closure, v = .function id closure → closure.scope < h.scopes.size) :
    v.BelongsTo h.newValue.2 := by
  intro u hu
  rw [v.layers_eq] at hu
  rcases List.mem_cons.mp hu with rfl | hu
  · refine ⟨fun serial hserial => ?_, hscope⟩
    rw [hid] at hserial
    rw [← ValueId.made.inj hserial]
    exact Nat.lt_succ_self _
  · have hself := htail u hu u u.mem_layers
    exact ⟨fun serial hserial => Nat.lt_succ_of_lt (hself.1 serial hserial), hself.2⟩

/-- The values that a value wraps belong to the heap if the outermost one of them does. -/
theorem BelongsTo.layer (hv : v.BelongsTo h) : ∀ u ∈ v.layers, u.BelongsTo h :=
  fun _ hu w hw => hv w (Value.layers_trans hu hw)

end Value

namespace Heap

variable {h h' : Heap} {s : ScopeId}

/-! ## Chains -/

section Chain

variable (hord : ∀ s outer, h.outer? s = some outer → outer < s)

include hord

theorem chainFrom_eq_chain {length : Nat} (hs : s < length) : h.chainFrom length s = h.chain s := by
  have hall : ∀ (length other : Nat) (s : ScopeId), s < length → s < other →
      h.chainFrom length s = h.chainFrom other s := by
    intro length
    induction length with
    | zero => exact fun _ s hs => absurd hs (Nat.not_lt_zero s)
    | succ length ih =>
      rintro (_ | other) s hs hs'
      · exact absurd hs' (Nat.not_lt_zero s)
      · rw [chainFrom, chainFrom]
        cases houter : h.outer? s with
        | none => rfl
        | some outer =>
          have hlt := hord s outer houter
          exact congrArg (s :: ·) (ih other outer (Nat.lt_of_lt_of_le hlt (Nat.le_of_lt_succ hs))
            (Nat.lt_of_lt_of_le hlt (Nat.le_of_lt_succ hs')))
  exact hall length (s + 1) s hs (Nat.lt_succ_self s)

/-- The chain of a scope goes on with the chain of the scope around it. -/
theorem chain_of_outer? {outer : ScopeId} (houter : h.outer? s = some outer) :
    h.chain s = s :: h.chain outer := by
  rw [chain, chainFrom, houter]
  exact congrArg (s :: ·) (chainFrom_eq_chain hord (hord s outer houter))

/-- A chain stays what it is. -/
theorem Extends.chain_eq (hext : h.Extends h') (hs : s < h.scopes.size) :
    h'.chain s = h.chain s := by
  have hall : ∀ (length : Nat) (s : ScopeId), s < h.scopes.size →
      h'.chainFrom length s = h.chainFrom length s := by
    intro length
    induction length with
    | zero => exact fun _ _ => rfl
    | succ length ih =>
      intro s hs
      rw [chainFrom, chainFrom, hext.outer?_eq s hs]
      cases houter : h.outer? s with
      | none => rfl
      | some outer =>
        exact congrArg (s :: ·) (ih outer (Nat.lt_trans (hord s outer houter) hs))
  exact hall (s + 1) s hs

end Chain

/-! ## What keeps a heap sound -/

theorem Sound.newValue (hsound : h.Sound) : h.newValue.2.Sound where
  outer_lt := hsound.outer_lt
  bound := fun s name v hv =>
    (hsound.bound s name v hv).mono (Nat.le_succ _) (Nat.le_refl _)

theorem Sound.set (hsound : h.Sound) {v : Value} (hv : v.BelongsTo h) (s : ScopeId)
    (name : String) : (h.set s name v).Sound where
  outer_lt := by
    intro t outer houter
    rw [outer?_set] at houter
    exact hsound.outer_lt t outer houter
  bound := by
    intro t other u hu
    have hold : ∀ {w : Value}, w.BelongsTo h → w.BelongsTo (h.set s name v) :=
      Value.BelongsTo.mono (Nat.le_refl h.values) (Nat.le_of_eq (size_set ..).symm)
    rcases Binds.of_set hu with rfl | hu
    · exact hold hv
    · exact hold (hsound.bound t other u hu)

theorem Sound.openCall (hsound : h.Sound) {closure : Closure} {arguments : List Value}
    (hscope : closure.scope < h.scopes.size) (harguments : ∀ v ∈ arguments, v.BelongsTo h) :
    (h.openCall closure arguments).Sound where
  outer_lt := by
    intro s outer houter
    rw [outer?_openCall] at houter
    split at houter
    · next hs =>
      rw [hs, ← Option.some.inj houter]
      exact hscope
    · exact hsound.outer_lt s outer houter
  bound := by
    intro s name v hv
    have hgrown : ∀ {u : Value}, u.BelongsTo h → u.BelongsTo (h.openCall closure arguments) :=
      Value.BelongsTo.mono (Nat.le_of_eq (values_openCall ..).symm)
        (by rw [size_openCall]; exact Nat.le_succ _)
    rcases Binds.of_openCall hv with hlast | hold
    · obtain ⟨pair, hpair, rfl⟩ := List.mem_map.mp (mem_of_lastNamed hlast)
      exact hgrown (harguments _ (List.of_mem_zip hpair).2)
    · exact hgrown (hsound.bound s name v hold)

end Heap

/-! ## Runs -/

section

variable {m : Machine} {n : Node} {done : List (Option Value)} {scope : ScopeId}
  (hdone : ∀ v, some v ∈ done → v.BelongsTo m.heap)

include hdone

theorem Value.belongsTo_getD {v : Option Value} (mem : v ∈ done) :
    (v.getD m.null).BelongsTo m.heap := by
  cases v with
  | none => exact Value.belongsTo_constant m.heap m.number .null
  | some v => exact hdone v mem

theorem Node.Held.belongsTo (hsound : m.heap.Sound) {v : Value}
    (hheld : Node.Held m done (some v)) : v.BelongsTo m.heap := by
  cases hheld with
  | constant constant => exact Value.belongsTo_constant _ _ _
  | part mem => exact hdone v mem
  | unwrapped mem => exact (hdone _ mem).unwrapped
  | bound binds => exact hsound.bound _ _ v binds

theorem Node.Fresh.belongsTo (hscope : scope < m.heap.scopes.size) {v : Value}
    (hfresh : n.Fresh m done scope v) : v.BelongsTo m.heap.newValue.2 := by
  cases hfresh with
  | integer value =>
    exact Value.belongsTo_newValue rfl (fun _ hu => absurd hu List.not_mem_nil)
      fun _ _ heq => (by cases heq)
  | fault fault =>
    exact Value.belongsTo_newValue rfl (fun _ hu => absurd hu List.not_mem_nil)
      fun _ _ heq => (by cases heq)
  | wrapper mem proper =>
    exact Value.belongsTo_newValue rfl (Value.belongsTo_getD hdone mem).layer
      fun _ _ heq => (by cases heq)
  | function node =>
    refine Value.belongsTo_newValue rfl (fun _ hu => absurd hu List.not_mem_nil) ?_
    intro id closure heq
    rw [← (Value.function.inj heq).2]
    exact hscope

/-- The heap after the end of a node is sound, and the value belongs to it. -/
theorem Node.Ends.sound (hsound : m.heap.Sound) (hscope : scope < m.heap.scopes.size)
    {result : Option Value × Machine} (hends : n.Ends m done scope result) :
    result.2.heap.Sound ∧ m.heap.values ≤ result.2.heap.values ∧
      ∀ v, result.1 = some v → v.BelongsTo result.2.heap := by
  cases hends with
  | keep held =>
    refine ⟨hsound, Nat.le_refl _, ?_⟩
    rintro v rfl
    exact held.belongsTo hdone hsound
  | make fresh =>
    refine ⟨hsound.newValue, Nat.le_succ _, ?_⟩
    intro v hv
    rw [← Option.some.inj hv]
    exact fresh.belongsTo hdone hscope
  | bind node parts named proper =>
    refine ⟨hsound.set (Value.belongsTo_getD hdone ?_) _ _, Nat.le_refl _,
      fun v hv => (by cases hv)⟩
    rw [parts]
    exact List.mem_cons_self

end

namespace Config

/-- What every run keeps: the heap is sound, the values at hand belong to it, and the scopes in use
exist. -/
structure Allocated (c : Config) : Prop where
  sound : c.machine.heap.Sound
  done : ∀ f ∈ c.frames, ∀ v, some v ∈ f.done → v.BelongsTo c.machine.heap
  frames_lt : ∀ f ∈ c.frames, f.scope < c.machine.heap.scopes.size
  asked_lt : ∀ node scope, c.control = .enter node scope → scope < c.machine.heap.scopes.size

variable {c c' : Config}

/-- **A step keeps the heap sound,** and no serial number is given out twice. -/
theorem Step.allocated (hstep : c.Step c') (h : c.Allocated) :
    c'.Allocated ∧ c.machine.heap.values ≤ c'.machine.heap.values := by
  cases hstep with
  | @enter m node scope frames allowed =>
    refine ⟨⟨h.sound, ?_, ?_, fun _ _ hc => (by cases hc)⟩, Nat.le_refl _⟩
    · exact List.forall_mem_cons.mpr ⟨fun _ hv => absurd hv List.not_mem_nil, h.done⟩
    · exact List.forall_mem_cons.mpr ⟨h.asked_lt node scope rfl, h.frames_lt⟩
  | @visit m f rest part move =>
    refine ⟨⟨h.sound, h.done, h.frames_lt, ?_⟩, Nat.le_refl _⟩
    intro node scope hcontrol
    obtain ⟨_, rfl⟩ := Control.enter.inj hcontrol
    exact h.frames_lt f List.mem_cons_self
  | @call m f rest closure arguments move =>
    obtain ⟨id, callee, operands, function, others, _, hdone, _, hargs, _, _, id', hfunction⟩ :=
      Node.of_move_eq_call move
    have hpart : ∀ v, v ∈ f.done → (v.getD m.null).BelongsTo m.heap := fun v =>
      Value.belongsTo_getD (h.done f List.mem_cons_self)
    rw [hdone] at hpart
    have hscope : closure.scope < m.heap.scopes.size := by
      have hbelongs := hpart function List.mem_cons_self
      rw [hfunction] at hbelongs
      exact (hbelongs _ List.mem_cons_self).2 _ _ rfl
    have harguments : ∀ v ∈ arguments, v.BelongsTo m.heap := by
      intro v hv
      rw [hargs] at hv
      obtain ⟨x, hx, rfl⟩ := List.mem_map.mp hv
      exact hpart x (List.mem_cons_of_mem _ hx)
    have hvalues : m.heap.values ≤ (m.heap.openCall closure arguments).values :=
      Nat.le_of_eq (Heap.values_openCall ..).symm
    have hsize : m.heap.scopes.size < (m.heap.openCall closure arguments).scopes.size := by
      rw [Heap.size_openCall]
      exact Nat.lt_succ_self _
    refine ⟨⟨h.sound.openCall hscope harguments, ?_, ?_, ?_⟩, hvalues⟩
    · exact fun g hg v hv => (h.done g hg v hv).mono hvalues (Nat.le_of_lt hsize)
    · exact fun g hg => Nat.lt_trans (h.frames_lt g hg) hsize
    · intro node scope hcontrol
      obtain ⟨_, rfl⟩ := Control.enter.inj hcontrol
      exact hsize
  | @finish m f rest ending move =>
    obtain ⟨hsound, hvalues, hvalue⟩ := (Node.ends_of_move move f.scope).sound
      (h.done f List.mem_cons_self) h.sound (h.frames_lt f List.mem_cons_self)
    have hsize : (ending.apply f.scope m).2.heap.scopes.size = m.heap.scopes.size :=
      Ending.size_apply _ _ _
    have hold : ∀ {v : Value}, v.BelongsTo m.heap → v.BelongsTo (ending.apply f.scope m).2.heap :=
      Value.BelongsTo.mono hvalues (Nat.le_of_eq hsize.symm)
    rw [machine_deliver]
    refine ⟨⟨by rwa [machine_deliver], ?_, ?_, ?_⟩, hvalues⟩
    · intro g hg v hv
      rw [machine_deliver]
      obtain ⟨f', hf', _, _, hparts⟩ := of_mem_deliver hg
      rcases hparts v hv with hnew | hkept
      · exact hvalue v hnew
      · exact hold (h.done f' (List.mem_cons_of_mem _ hf') v hkept)
    · intro g hg
      rw [machine_deliver]
      obtain ⟨f', hf', _, hscope, _⟩ := of_mem_deliver hg
      rw [hscope]
      exact Nat.lt_of_lt_of_eq (h.frames_lt f' (List.mem_cons_of_mem _ hf')) hsize.symm
    · exact fun _ _ hcontrol => absurd hcontrol control_deliver_ne_enter

/-- What is evaluated on a sound heap leaves it sound at every moment. -/
theorem Reaches.allocated {m : Machine} {root : Node} {scope : ScopeId} (hsound : m.heap.Sound)
    (hs : scope < m.heap.scopes.size) (h : (start m root scope).Reaches c) :
    c.Allocated ∧ m.heap.values ≤ c.machine.heap.values := by
  induction h with
  | refl =>
    refine ⟨⟨hsound, fun _ hf => absurd hf List.not_mem_nil, fun _ hf => absurd hf List.not_mem_nil,
      ?_⟩, Nat.le_refl _⟩
    intro node scope' hcontrol
    obtain ⟨_, rfl⟩ := Control.enter.inj hcontrol
    exact hs
  | tail _ hstep ih =>
    obtain ⟨hallocated, hvalues⟩ := hstep.allocated ih.1
    exact ⟨hallocated, Nat.le_trans ih.2 hvalues⟩

end Config

/-- **Evaluations keep heaps sound.** -/
theorem Machine.sound_eval {m : Machine} (hsound : m.heap.Sound) (node : Node) {scope : ScopeId}
    (hs : scope < m.heap.scopes.size) : (m.eval node scope).2.heap.Sound := by
  obtain ⟨c, hreach, hheap, _⟩ := m.eval_reaches node scope
  rw [hheap]
  exact (Config.Reaches.allocated hsound hs hreach).1.sound

end TraceTree

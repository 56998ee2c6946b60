import TraceTree.Proofs.Eval.Wrapper
import TraceTree.Proofs.Trace.Nesting
import TraceTree.Proofs.Value.Binding

set_option autoImplicit false

/-! # Wrappers that escape

The wrapper of a `return` is meant to be gone once the function or the program around it has ended:
no scope binds it, no other wrapper holds it, and neither a program nor a call has it for a value
(`NoEscape`). A step loses this only if the innermost node keeps a wrapper (`Frame.Keeps`): a `let`
that binds it, a `return` that wraps it again, or a call that passes it to a parameter. -/

namespace TraceTree

/-- Whether a value is a wrapper around a wrapper. -/
def Value.isNested : Value → Bool
  | returned _ w => w.isWrapper
  | _ => false

/-- No wrapper has got away: none is bound, none holds another, and none is the value of a program
or a call. -/
structure NoEscape (h : Heap) (events : List Event) : Prop where
  bound : ∀ s name v, h.Binds s name v → v.isWrapper = false
  nested : ∀ e ∈ events, ∀ v, e.value? = some v → v.isNested = false
  unwrapped : ∀ e ∈ events, ∀ v, e.value? = some v → e.node.unwraps = true → v.isWrapper = false

/-- The next thing a node does is to keep a wrapper that it took for an operand. -/
inductive Frame.Keeps (null : Value) (f : Frame) : Prop where
  /-- A `let` binds it. -/
  | letStatement {id : NodeId} {target operand : Node} {name : String} {w : Value}
      {more : List (Option Value)} (node : f.node = .letStatement id target operand)
      (named : target.name? = some name) (done : f.done = some w :: more)
      (wrapper : w.isWrapper = true)
  /-- A `return` wraps it again. -/
  | returnStatement {id : NodeId} {operand : Node} {w : Value} {more : List (Option Value)}
      (node : f.node = .returnStatement id operand) (done : f.done = some w :: more)
      (wrapper : w.isWrapper = true)
  /-- A call binds a parameter to it. -/
  | call {closure : Closure} {arguments : List Value} {name : String} {w : Value}
      (move : f.node.move null f.done = .call closure arguments)
      (bound : lastNamed name (closure.parameters.zip arguments) = some w)
      (wrapper : w.isWrapper = true)

/-- The innermost node is about to keep a wrapper. -/
def Config.Keeps (c : Config) : Prop :=
  c.control = .advance ∧ ∃ f rest, c.frames = f :: rest ∧ f.Keeps c.machine.null

namespace Value

variable {v : Value}

theorem isNested_of_not_isWrapper (h : v.isWrapper = false) : v.isNested = false := by
  cases v <;> first | rfl | cases h

theorem not_isWrapper_of_isError (h : v.isError = true) : v.isWrapper = false := by
  cases v <;> first | rfl | cases h

theorem not_isWrapper_unwrapped (h : v.isNested = false) : v.unwrapped.isWrapper = false := by
  cases v <;> first | rfl | exact h

end Value

/-! ## Steps -/

/-- What a run keeps as long as no node keeps a wrapper: none has escaped, and the parts of the open
nodes have no wrapper around a wrapper. -/
structure Config.Contained (c : Config) : Prop where
  noEscape : NoEscape c.machine.heap c.machine.events
  done : ∀ f ∈ c.frames, ∀ v, some v ∈ f.done → v.isNested = false

section

variable {f : Frame} {m : Machine} {ending : Ending}
  (hbound : ∀ s name v, m.heap.Binds s name v → v.isWrapper = false)
  (hkeeps : ¬ f.Keeps m.null) (hmove : f.node.move m.null f.done = .finish ending)

include hbound hkeeps hmove

/-- What a node ends with that keeps no wrapper. -/
theorem Frame.value_of_not_keeps (hdone : ∀ v, some v ∈ f.done → v.isNested = false) {u : Value}
    (hu : (ending.apply f.scope m).1 = some u) :
    u.isNested = false ∧ (f.node.unwraps = true → u.isWrapper = false) := by
  have hplain : u.isWrapper = false →
      u.isNested = false ∧ (f.node.unwraps = true → u.isWrapper = false) :=
    fun h => ⟨Value.isNested_of_not_isWrapper h, fun _ => h⟩
  cases Node.endsWith_of_move hmove with
  | nothing => cases hu
  | null =>
    obtain rfl := Option.some.inj hu
    exact hplain rfl
  | fault _ error =>
    obtain rfl := Option.some.inj hu
    exact hplain (Value.not_isWrapper_of_isError error)
  | @part v mem kind =>
    obtain rfl : v = some u := hu
    exact ⟨hdone u mem, fun h => absurd h (by rw [kind]; exact Bool.false_ne_true)⟩
  | @unwrapped v mem =>
    obtain rfl := Option.some.inj hu
    cases v with
    | none => exact hplain rfl
    | some v => exact hplain (Value.not_isWrapper_unwrapped (hdone v mem))
  | @wrap id operand v more node parts =>
    obtain rfl := Option.some.inj hu
    refine ⟨?_, fun h => absurd h (by rw [node]; exact Bool.false_ne_true)⟩
    cases v with
    | none => rfl
    | some w =>
      show w.isWrapper = false
      cases hw : w.isWrapper with
      | false => rfl
      | true => exact absurd (.returnStatement node parts hw) hkeeps
  | bind _ _ =>
    rw [Ending.apply] at hu
    split at hu <;> cases hu
  | lookUp =>
    rw [Ending.apply] at hu
    split at hu
    · next v hget =>
      obtain rfl := Option.some.inj hu
      obtain ⟨t, ht⟩ := Heap.exists_binds_of_get? hget
      exact hplain (hbound t _ _ ht)
    · obtain rfl := Option.some.inj hu
      exact hplain rfl
  | close _ =>
    obtain rfl := Option.some.inj hu
    exact hplain rfl
  | result => exact hplain (Ending.isWrapper_apply_result hu)

/-- What scopes bind after a node ends that keeps no wrapper. -/
theorem Frame.bound_of_not_keeps (s : ScopeId) (name : String) (v : Value)
    (hv : (ending.apply f.scope m).2.heap.Binds s name v) : v.isWrapper = false := by
  cases Node.endsWith_of_move hmove with
  | @bind id target operand w more node parts =>
    rw [Ending.apply] at hv
    split at hv
    · next name' hname =>
      rcases Heap.Binds.of_set hv with rfl | hold
      · cases w with
        | none => rfl
        | some w =>
          show w.isWrapper = false
          cases hw : w.isWrapper with
          | false => rfl
          | true => exact absurd (.letStatement node hname parts hw) hkeeps
      · exact hbound _ _ _ hold
    · exact hbound _ _ _ hv
  | lookUp =>
    rw [Ending.apply] at hv
    split at hv <;> exact hbound _ _ _ hv
  | @result r => cases r <;> exact hbound _ _ _ hv
  | _ => exact hbound _ _ _ hv

end

namespace Config

variable {c c' : Config}

/-- **A step lets no wrapper escape, unless a node is about to keep one.** -/
theorem Step.contained (ht : c.machine.tracing = true) (hstep : c.Step c') (hkeeps : ¬ c.Keeps)
    (h : c.Contained) : c'.Contained := by
  obtain ⟨⟨hbound, hnested, hunwrapped⟩, hdone⟩ := h
  cases hstep with
  | @enter m node scope frames allowed =>
    refine ⟨⟨hbound, ?_, ?_⟩, ?_⟩
    · exact Machine.forall_events_enter ht hnested nofun
    · exact Machine.forall_events_enter ht hunwrapped nofun
    · exact List.forall_mem_cons.mpr ⟨fun _ hv => absurd hv List.not_mem_nil, hdone⟩
  | @visit m f rest part move => exact ⟨⟨hbound, hnested, hunwrapped⟩, hdone⟩
  | @call m f rest closure arguments move =>
    refine ⟨⟨?_, hnested, hunwrapped⟩, hdone⟩
    intro s name v hv
    rcases Heap.Binds.of_openCall hv with hlast | hold
    · cases hw : v.isWrapper with
      | false => rfl
      | true => exact absurd ⟨rfl, f, rest, rfl, .call move hlast hw⟩ hkeeps
    · exact hbound s name v hold
  | @finish m f rest ending move =>
    have hkeeps' : ¬ f.Keeps m.null := fun hf => hkeeps ⟨rfl, f, rest, rfl, hf⟩
    have hvalue : ∀ u, (ending.apply f.scope m).1 = some u →
        u.isNested = false ∧ (f.node.unwraps = true → u.isWrapper = false) :=
      fun u hu => Frame.value_of_not_keeps hbound hkeeps' move (hdone f List.mem_cons_self) hu
    refine ⟨⟨?_, ?_, ?_⟩, ?_⟩
    · rw [machine_deliver]
      exact Frame.bound_of_not_keeps hbound hkeeps' move
    · rw [machine_deliver]
      exact Machine.forall_events_finish ht hnested fun v hv => (hvalue v hv).1
    · rw [machine_deliver]
      exact Machine.forall_events_finish ht hunwrapped fun v hv => (hvalue v hv).2
    · intro g hg v hv
      obtain ⟨f', hf', _, _, hparts⟩ := of_mem_deliver hg
      rcases hparts v hv with hnew | hold
      · exact (hvalue v hnew).1
      · exact hdone f' (List.mem_cons_of_mem _ hf') v hold

/-- **A node that is about to keep a wrapper lets it escape.** -/
theorem escape_of_keeps {m : Machine} {root : Node} {scope : ScopeId}
    (h : c.Recorded m root scope) (hkeeps : c.Keeps) :
    ∃ c', c.Step c' ∧ ¬ NoEscape c'.machine.heap c'.machine.events := by
  obtain ⟨hcontrol, f, rest, hframes, hf⟩ := hkeeps
  have hscope := h.nested.frames_lt f (by rw [hframes]; exact List.mem_cons_self)
  have ht := h.tracing_eq
  obtain ⟨m', control, frames⟩ := c
  simp only at hcontrol hframes hscope ht hf
  subst hcontrol hframes
  have hunless : ∀ {w : Value}, w.isWrapper = true → ∀ move, Move.unlessError w move = move :=
    fun hw => Move.unlessError_of_isWrapper hw
  cases hf with
  | @letStatement id target operand name w more node named done wrapper =>
    have hmove : f.node.move m'.null f.done = .finish (.bind target w) := by
      rw [node, done]
      exact hunless wrapper _
    refine ⟨_, .finish hmove, fun hno => ?_⟩
    rw [machine_deliver, Ending.apply, named] at hno
    have hw := hno.bound _ _ _ (Heap.binds_set_self hscope name w)
    rw [wrapper] at hw
    cases hw
  | @returnStatement id operand w more node done wrapper =>
    have hmove : f.node.move m'.null f.done = .finish (.wrap w) := by
      rw [node, done]
      exact hunless wrapper _
    refine ⟨_, .finish hmove, fun hno => ?_⟩
    rw [machine_deliver, Machine.events_finish ht] at hno
    have hw := hno.nested _ (List.mem_append_right _ List.mem_cons_self) _ rfl
    rw [show Value.isNested (.returned _ w) = w.isWrapper from rfl, wrapper] at hw
    cases hw
  | @call closure arguments name w move bound wrapper =>
    refine ⟨_, .call move, fun hno => ?_⟩
    have hw := hno.bound _ _ _ ((Heap.get?_bindings_openCall _ _ _ name).trans bound)
    rw [wrapper] at hw
    cases hw

end Config

end TraceTree

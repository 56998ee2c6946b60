import TraceTree.Proofs.Trace.Linking
import TraceTree.Workspace

set_option autoImplicit false

/-! # Faults end the evaluation

A node that is handed a fault by one of its parts ends with this very fault, whatever the part was
for (`Node.move_concat_error`). So once a node is left with a fault, nothing is done any more but to
leave the nodes that are open, one after the other and each with the fault (`Config.Unwinds`), until
the evaluation as a whole has it for its value. -/

namespace TraceTree

namespace Value

variable {v : Value}

theorem endsSequence_of_isError (h : v.isError = true) : v.endsSequence = true := by
  cases v <;> first | rfl | cases h

theorem unwrapped_of_isError (h : v.isError = true) : v.unwrapped = v := by
  cases v <;> first | rfl | cases h

end Value

/-! ## Handing on a fault -/

namespace Move

variable {null v : Value}

theorem unlessError_of_isError (hv : v.isError = true) (move : Move) :
    unlessError v move = .finish (.value (some v)) := by
  rw [unlessError, if_pos hv]

/-- What goes on was handed no fault. -/
theorem of_unlessError_ne_finish {value : Value} {move : Move}
    (h : ∀ ending, unlessError value move ≠ .finish ending) :
    (∀ other, unlessError value other = other) ∧ ∀ ending, move ≠ .finish ending := by
  have herror : ¬ value.isError = true := fun herror => h _ (unlessError_of_isError herror move)
  have hsame : ∀ other, unlessError value other = other := fun other => by
    rw [unlessError, if_neg herror]
  exact ⟨hsame, hsame move ▸ h⟩

theorem application_concat_error (hv : v.isError = true) {function : Value}
    {arguments : List Value} {done : List (Option Value)}
    (h : ∀ ending, application null function arguments done ≠ .finish ending) :
    application null function arguments (done ++ [some v]) = .finish (.value (some v)) := by
  cases done with
  | nil =>
    show Move.finish (.value (some v.unwrapped)) = _
    rw [Value.unwrapped_of_isError hv]
  | cons result done => exact absurd rfl (h _)

theorem operands_concat_error (hv : v.isError = true) {function : Value} {values : List Value}
    {operands : List Node} {done : List (Option Value)}
    (h : ∀ ending, Move.operands null function values operands done ≠ .finish ending) :
    Move.operands null function values operands (done ++ [some v]) =
      .finish (.value (some v)) := by
  induction operands generalizing values done with
  | nil => exact application_concat_error hv h
  | cons operand more ih =>
    cases done with
    | nil => exact unlessError_of_isError hv _
    | cons value done =>
      obtain ⟨hsame, hrest⟩ := of_unlessError_ne_finish h
      exact (hsame _).trans (ih hrest)

end Move

/-- **A node ends with the first fault that it is handed.** -/
theorem Node.move_concat_error {null v : Value} (hv : v.isError = true) {n : Node}
    {done : List (Option Value)} (h : ∀ ending, n.move null done ≠ .finish ending) :
    n.move null (done ++ [some v]) = .finish (.value (some v)) := by
  have hunless : ∀ move, Move.unlessError v move = .finish (.value (some v)) :=
    Move.unlessError_of_isError hv
  cases n with
  | program id statements =>
    have hend : (Node.program id statements).move null (done ++ [some v]) =
        .finish (.value (some v.unwrapped)) :=
      Move.sequence_concat (Value.endsSequence_of_isError hv) h
    rw [Value.unwrapped_of_isError hv] at hend
    exact hend
  | block id statements => exact Move.sequence_concat (Value.endsSequence_of_isError hv) h
  | expressionStatement id expression =>
    cases done with
    | nil => rfl
    | cons value done => exact absurd rfl (h _)
  | returnStatement id operand =>
    cases done with
    | nil => exact hunless _
    | cons value done => exact absurd rfl ((Move.of_unlessError_ne_finish h).2 _)
  | letStatement id target operand =>
    cases done with
    | nil => exact hunless _
    | cons value done => exact absurd rfl ((Move.of_unlessError_ne_finish h).2 _)
  | prefixExpression id op operand =>
    cases done with
    | nil => exact hunless _
    | cons value done => exact absurd rfl ((Move.of_unlessError_ne_finish h).2 _)
  | infixExpression id op first second =>
    rcases done with _ | ⟨left, _ | ⟨right, done⟩⟩
    · exact hunless _
    · exact hunless _
    · exact absurd rfl ((Move.of_unlessError_ne_finish h).2 _)
  | ifExpression id condition consequence alternative =>
    rcases done with _ | ⟨test, _ | ⟨value, done⟩⟩
    · exact hunless _
    · rfl
    · exact absurd rfl (h _)
  | call id callee operands =>
    cases done with
    | nil => exact hunless _
    | cons function done =>
      obtain ⟨hsame, hrest⟩ := Move.of_unlessError_ne_finish h
      exact (hsame _).trans (Move.operands_concat_error hv hrest)
  | integer id n => exact absurd rfl (h _)
  | boolean id b => exact absurd rfl (h _)
  | identifier id name => exact absurd rfl (h _)
  | functionLiteral id parameters body => exact absurd rfl (h _)

theorem Frame.Asks.ne_finish {null : Value} {g : Frame} {node : Node} {scope : ScopeId}
    (h : g.Asks null node scope) (ending : Ending) : g.node.move null g.done ≠ .finish ending := by
  rcases h with ⟨hvisit, _⟩ | ⟨closure, arguments, hcall, _⟩
  · exact Move.ne_finish_of_visit hvisit ending
  · rw [hcall]
    exact nofun

/-! ## Leaving the open nodes -/

namespace Config

/-- The innermost open node is about to end with a value, or the evaluation has ended with it. -/
def Unwinds (v : Value) (c : Config) : Prop :=
  (c.control = .stop (some v) ∧ c.frames = []) ∨
    ∃ f rest, c.control = .advance ∧ c.frames = f :: rest ∧
      f.node.move c.machine.null f.done = .finish (.value (some v))

variable {v : Value} {c c' : Config} {m : Machine} {root : Node} {rootScope : ScopeId}

/-- Whoever is handed a fault is about to end with it. -/
theorem unwinds_deliver (hv : v.isError = true) {frames : List Frame}
    (hasks : ∀ g rest, frames = g :: rest → ∃ node scope, g.Asks m.null node scope) :
    (deliver m (some v) frames).Unwinds v := by
  cases frames with
  | nil => exact Or.inl ⟨rfl, rfl⟩
  | cons g rest =>
    obtain ⟨node, scope, hask⟩ := hasks g rest rfl
    exact Or.inr ⟨_, rest, rfl, rfl, Node.move_concat_error hv hask.ne_finish⟩

/-- In a linked configuration the node around the innermost open one waits for it. -/
theorem Linked.asks_tail (h : c.Linked) {f : Frame} {rest : List Frame}
    (hframes : c.frames = f :: rest) :
    ∀ g rest', rest = g :: rest' → ∃ node scope, g.Asks c.machine.null node scope := by
  rintro g rest' rfl
  have hchain := h.frames
  rw [hframes] at hchain
  exact ⟨_, _, (List.isChain_cons_cons.mp hchain).1⟩

/-- A node that is left with a fault hands it to the node around it. -/
theorem Step.unwinds_of_exit (ht : c.machine.tracing = true) (hlinked : c.Linked)
    (hstep : c.Step c') (hv : v.isError = true) {step : Nat} {node : Node} {scope : ScopeId}
    (he : c'.machine.events = c.machine.events ++ [.exit step node scope (some v)]) :
    c'.Unwinds v := by
  have hnull := hstep.null_eq
  cases hstep with
  | enter _ =>
    rw [Machine.events_enter ht] at he
    exact absurd (List.append_cancel_left he) (by simp)
  | visit _ => exact absurd (congrArg List.length he) (by simp)
  | call _ => exact absurd (congrArg List.length he) (by simp [Machine.events])
  | @finish m f rest ending move =>
    rw [machine_deliver] at hnull he
    rw [Machine.events_finish ht] at he
    obtain ⟨_, _, _, hvalue⟩ :=
      Event.exit.inj (List.singleton_inj.mp (List.append_cancel_left he))
    rw [hvalue] at hnull ⊢
    refine unwinds_deliver hv ?_
    rw [hnull]
    exact hlinked.asks_tail rfl

/-- **A step that hands on a fault does nothing else.** The heap stays as it is, and one more node is
left with the fault. -/
theorem Step.unwinds (ht : c.machine.tracing = true) (hlinked : c.Linked) (hstep : c.Step c')
    (hv : v.isError = true) (h : c.Unwinds v) :
    c'.Unwinds v ∧ c'.machine.heap = c.machine.heap ∧
      ∃ node scope, c'.machine.events =
        c.machine.events ++ [.exit c.machine.events.length node scope (some v)] := by
  rcases h with ⟨hcontrol, _⟩ | ⟨f, rest, hcontrol, hframes, hmove⟩
  · cases hstep <;> cases hcontrol
  · cases hstep with
    | enter _ => cases hcontrol
    | visit move =>
      obtain ⟨rfl, rfl⟩ := List.cons.inj hframes
      exact absurd hmove (Move.ne_finish_of_visit move _)
    | call move =>
      obtain ⟨rfl, rfl⟩ := List.cons.inj hframes
      exact nomatch move.symm.trans hmove
    | @finish m f rest ending move =>
      obtain ⟨rfl, rfl⟩ := List.cons.inj hframes
      obtain rfl := Move.finish.inj (move.symm.trans hmove)
      have hexit := Machine.events_finish ht (.value (some v)) f.node f.scope (some v)
      refine ⟨unwinds_deliver hv (hlinked.asks_tail rfl), ?_, f.node, f.scope, ?_⟩
      · rw [machine_deliver]
        rfl
      · rw [machine_deliver]
        exact hexit

/-- **What follows a fault.** All that is recorded after it is that nodes are left with it, and the
heap is the same in every later moment. -/
theorem Recorded.unwinds (h : c.Recorded m root rootScope) (hv : v.isError = true)
    (hunwinds : c.Unwinds v) (hreach : c.Reaches c') :
    c'.Unwinds v ∧ c'.machine.heap = c.machine.heap ∧
      ∀ j e, c.machine.events.length ≤ j → c'.machine.events[j]? = some e →
        ∃ node scope, e = .exit j node scope (some v) := by
  induction hreach with
  | refl =>
    refine ⟨hunwinds, rfl, fun j e hj he => ?_⟩
    exact absurd (List.getElem?_eq_some_iff.mp he).1 (Nat.not_lt.mpr hj)
  | @tail c₁ c₂ hreach hstep ih =>
    obtain ⟨hunwinds₁, hheap, hexits⟩ := ih
    have hrec : c₁.Recorded m root rootScope :=
      ⟨h.tracing, h.events_eq, h.scope_lt, h.reaches.trans hreach⟩
    obtain ⟨hunwinds₂, hheap₂, node, scope, hevents⟩ :=
      hstep.unwinds hrec.tracing_eq hrec.linked hv hunwinds₁
    refine ⟨hunwinds₂, hheap₂.trans hheap, fun j e hj he => ?_⟩
    rw [hevents, getElem?_concat_eq_some] at he
    rcases he with he | ⟨rfl, rfl⟩
    · exact hexits j e hj he
    · exact ⟨node, scope, rfl⟩

end Config

/-! ## Recorded traces -/

/-- **A fault is final.** Whatever is evaluated and wherever the fault appears: once a node is left
with it, the evaluation has this fault for its value, all later events leave nodes with it, and from
the moment it is recorded nothing is bound and no scope is made for a call. -/
theorem Machine.fault_final (heap : Heap) (limit : Nat) (root : Node) (scope : ScopeId)
    (hs : scope < heap.scopes.size) :
    let start := Machine.new heap limit true
    let run := start.eval root scope
    ∀ i node at' v, run.2.events[i]? = some (.exit i node at' (some v)) → v.isError = true →
      run.1 = .ok (some v) ∧
        (∀ j e, i < j → run.2.events[j]? = some e →
          ∃ node scope, e = .exit j node scope (some v)) ∧
        ∃ c : Config, (Config.start start root scope).Reaches c ∧
          c.machine.events = run.2.events.take (i + 1) ∧
          ∀ c', c.Reaches c' → c'.machine.heap = run.2.heap := by
  intro start run i node at' v he hv
  obtain ⟨last, hreach, hheap, htrace, hok, hover⟩ := start.eval_reaches root scope
  have hrec : last.Recorded start root scope := ⟨rfl, rfl, hs, hreach⟩
  have hevents : run.2.events = last.machine.events := by rw [events, htrace, events]
  rw [hevents] at he ⊢
  obtain ⟨c₁, c₂, hrec₁, hstep, hafter, _, htake, hlast⟩ := hrec.at_event he
  have hunwinds := hstep.unwinds_of_exit hrec₁.tracing_eq hrec₁.linked hv hlast
  have hrec₂ : c₂.Recorded start root scope := ⟨rfl, rfl, hs, hrec₁.reaches.tail hstep⟩
  have hlen : c₂.machine.events.length = i + 1 := by
    rw [htake, List.length_take_of_le (List.getElem?_eq_some_iff.mp he).1]
  obtain ⟨hend, hsame, hexits⟩ := hrec₂.unwinds hv hunwinds hafter
  refine ⟨?_, ?_, c₂, hrec₂.reaches, htake, fun c' hc' => ?_⟩
  · -- an evaluation that was given up would be about to enter a node
    cases hout : run.1 with
    | error o =>
      obtain ⟨⟨_, _, hcontrol⟩, _⟩ := hover o hout
      rcases hend with ⟨hstop, _⟩ | ⟨_, _, hadvance, _⟩
      · rw [hcontrol] at hstop
        cases hstop
      · rw [hcontrol] at hadvance
        cases hadvance
    | ok value =>
      obtain ⟨hcontrol, hframes⟩ := hok value hout
      rcases hend with ⟨hstop, _⟩ | ⟨_, _, _, hopen, _⟩
      · rw [hcontrol] at hstop
        rw [Control.stop.inj hstop]
      · rw [hframes] at hopen
        cases hopen
  · intro j e hij he'
    exact hexits j e (by omega) he'
  · rw [(hrec₂.unwinds hv hunwinds hc').2.1, ← hsame]
    exact hheap.symm

/-- The program `fn(x) { -true; x }(1); 7`, where a function meets a fault. -/
def faultyCall : Node :=
  .program 0 [.expressionStatement 1 (.call 2 (.functionLiteral 3 [.identifier 4 "x"] (.block 5
      [.expressionStatement 6 (.prefixExpression 7 .neg (.boolean 8 true)),
        .expressionStatement 9 (.identifier 10 "x")])) [.integer 11 1]),
    .expressionStatement 12 (.integer 13 7)]

/-- Its evaluation. -/
def faultyCallRun : Except Overflow (Option Value) × Machine :=
  (Machine.new Workspace.empty.heap 9 true).eval faultyCall Workspace.empty.globals

/-- The fault that the operator makes. -/
def operatorFault : Value := .error (.made 2) (.unknownPrefix .neg .boolean)

/-- The fault of the operator is the value of the program, and neither `x` nor `7` is entered. -/
theorem Machine.fault_final_faultyCall :
    Workspace.empty.globals < Workspace.empty.heap.scopes.size ∧
      faultyCallRun.2.events[12]? =
        some (.exit 12 (.prefixExpression 7 .neg (.boolean 8 true)) 1 (some operatorFault)) ∧
      operatorFault.isError = true ∧ faultyCallRun.1 = .ok (some operatorFault) ∧
      ∀ j e, 12 < j → faultyCallRun.2.events[j]? = some e →
        ∃ node scope, e = .exit j node scope (some operatorFault) := by
  have hs : Workspace.empty.globals < Workspace.empty.heap.scopes.size := by decide
  have he : faultyCallRun.2.events[12]? =
      some (.exit 12 (.prefixExpression 7 .neg (.boolean 8 true)) 1 (some operatorFault)) := by cbv
  obtain ⟨hvalue, hexits, _⟩ :=
    Machine.fault_final Workspace.empty.heap 9 faultyCall Workspace.empty.globals hs 12 _ 1
      operatorFault he rfl
  exact ⟨hs, he, rfl, hvalue, hexits⟩

end TraceTree

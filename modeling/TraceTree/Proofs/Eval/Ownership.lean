import TraceTree.Proofs.Eval.Keeping
import TraceTree.Proofs.Trace.Recording
import TraceTree.Proofs.Value.Ownership

set_option autoImplicit false

/-! # Evaluations do not depend on who owns the constants

A heap, an evaluator and a configuration without owners have all constants taken for those of the
first evaluator, and nothing recorded. Each operation on heaps and each step does the same without
owners as long as the values are genuine, and all that evaluations make are. So two evaluators that
differ in their own constants, and in those of earlier evaluators, come to the same
(`Machine.eval_unowned`). -/

namespace TraceTree

/-- Evaluations keep values genuine. -/
theorem Value.kept_genuine : Value.Kept Value.Genuine Value.Genuine where
  constant := Value.genuine_constant
  integer := fun _ _ => Value.genuine_made rfl fun _ hu => absurd hu List.not_mem_nil
  fault := fun _ _ => Value.genuine_made rfl fun _ hu => absurd hu List.not_mem_nil
  function := fun _ _ => Value.genuine_made rfl fun _ hu => absurd hu List.not_mem_nil
  wrapper := fun _ _ hv _ => Value.genuine_made rfl fun _ hu => hv.layer hu
  unwrapped := fun _ hv => hv.unwrapped
  binding := fun _ hv _ => hv
  bound := fun _ hv => hv

/-- All values that the scopes bind are genuine. -/
def Heap.Genuine (h : Heap) : Prop := ∀ s name v, h.Binds s name v → v.Genuine

/-! ## Heaps -/

/-- The same bindings without the owners of constants. -/
def Bindings.unowned (bindings : Bindings) : Bindings := bindings.map fun b => (b.1, b.2.unowned)

/-- What is shown of bindings: the names, and the types and texts of their values. -/
def Bindings.shown (bindings : Bindings) : List (String × ValueType × String) :=
  bindings.map fun b => (b.1, b.2.shown)

/-- The same scope without the owners of constants. -/
def Scope.unowned (scope : Scope) : Scope := { scope with bindings := scope.bindings.unowned }

/-- The same heap without the owners of constants, as if no evaluator had been made. -/
def Heap.unowned (h : Heap) : Heap where
  scopes := h.scopes.map Scope.unowned
  values := h.values
  evaluators := 0

namespace Bindings

theorem get?_unowned (name : String) (bindings : Bindings) :
    bindings.unowned.get? name = (bindings.get? name).map Value.unowned := by
  induction bindings with
  | nil => rfl
  | cons b more ih =>
    obtain ⟨n, v⟩ := b
    by_cases hn : n = name
    · simp [unowned, get?, hn]
    · simpa [unowned, get?, hn] using ih

theorem unowned_set (name : String) (v : Value) (bindings : Bindings) :
    (bindings.set name v).unowned = bindings.unowned.set name v.unowned := by
  induction bindings with
  | nil => rfl
  | cons b more ih =>
    obtain ⟨n, w⟩ := b
    by_cases hn : n = name
    · simp [unowned, set, hn]
    · by_cases hlt : name < n
      · simp [unowned, set, hn, hlt]
      · simpa [unowned, set, hn, hlt] using ih

@[simp] theorem shown_unowned (bindings : Bindings) : bindings.unowned.shown = bindings.shown := by
  simp [unowned, shown]

end Bindings

namespace Heap

variable (h : Heap)

@[simp] theorem size_unowned : h.unowned.scopes.size = h.scopes.size := Array.size_map ..

theorem bindings_unowned (s : ScopeId) : h.unowned.bindings s = (h.bindings s).unowned := by
  unfold bindings unowned
  rw [Array.getElem?_map]
  cases h.scopes[s]? <;> rfl

theorem outer?_unowned (s : ScopeId) : h.unowned.outer? s = h.outer? s := by
  unfold outer? unowned
  rw [Array.getElem?_map]
  cases h.scopes[s]? <;> rfl

theorem chain_unowned (s : ScopeId) : h.unowned.chain s = h.chain s := by
  have hall : ∀ length s, h.unowned.chainFrom length s = h.chainFrom length s := by
    intro length
    induction length with
    | zero => exact fun _ => rfl
    | succ length ih =>
      intro s
      rw [chainFrom, chainFrom, outer?_unowned]
      cases h.outer? s with
      | none => rfl
      | some outer => exact congrArg (s :: ·) (ih outer)
  exact hall (s + 1) s

theorem get?_unowned (s : ScopeId) (name : String) :
    h.unowned.get? s name = (h.get? s name).map Value.unowned := by
  rw [get?, get?, chain_unowned, List.map_findSome?]
  congr 1
  funext t
  rw [bindings_unowned, Bindings.get?_unowned]
  rfl

theorem unowned_set (s : ScopeId) (name : String) (v : Value) :
    (h.set s name v).unowned = h.unowned.set s name v.unowned := by
  have hscopes : (h.set s name v).unowned.scopes = (h.unowned.set s name v.unowned).scopes := by
    apply Array.ext_getElem?
    intro t
    simp only [set, unowned, Array.getElem?_map, Array.getElem?_modify]
    split
    · cases h.scopes[t]? <;> simp [Scope.unowned, Bindings.unowned_set]
    · rfl
  simpa [unowned, set] using hscopes

theorem unowned_newScope (outer : Option ScopeId) :
    (h.newScope outer).2.unowned = (h.unowned.newScope outer).2 := by
  simp [newScope, unowned, Scope.unowned, Bindings.unowned]

theorem unowned_bindAll (s : ScopeId) (pairs : List (Node × Value)) :
    (h.bindAll s pairs).unowned =
      h.unowned.bindAll s (pairs.map fun pair => (pair.1, pair.2.unowned)) := by
  induction pairs generalizing h with
  | nil => rfl
  | cons pair more ih =>
    obtain ⟨parameter, argument⟩ := pair
    simp only [List.map_cons, bindAll]
    cases parameter.name? with
    | none => exact ih h
    | some name =>
      simp only
      rw [ih, unowned_set]

theorem unowned_openCall (closure : Closure) (arguments : List Value) :
    (h.openCall closure arguments).unowned =
      h.unowned.openCall closure (arguments.map Value.unowned) := by
  rw [openCall, openCall, unowned_bindAll, unowned_newScope, size_unowned, List.zip_map_right]
  rfl

end Heap

/-! ## Moves -/

/-- The same end without the owners of constants. -/
def Ending.unowned : Ending → Ending
  | value v => value (v.map Value.unowned)
  | wrap v => wrap v.unowned
  | bind target v => bind target v.unowned
  | lookUp name => lookUp name
  | close parameters body => close parameters body
  | result r => result r

/-- The same move without the owners of constants. -/
def Move.unowned : Move → Move
  | visit part => visit part
  | call closure arguments => call closure (arguments.map Value.unowned)
  | finish ending => finish ending.unowned

namespace Move

theorem unowned_unlessError (value : Value) (move : Move) :
    (unlessError value move).unowned = unlessError value.unowned move.unowned := by
  unfold unlessError
  rw [Value.isError_unowned]
  split <;> rfl

theorem unowned_sequence (close : Option Value → Option Value)
    (hclose : ∀ v, (close v).map Value.unowned = close (v.map Value.unowned))
    (last : Option Value) (statements : List Node) (done : List (Option Value)) :
    (sequence close last statements done).unowned =
      sequence close (last.map Value.unowned) statements (done.map (·.map Value.unowned)) := by
  induction statements generalizing last done with
  | nil => exact congrArg (fun v => finish (.value v)) (hclose last)
  | cons statement more ih =>
    cases done with
    | nil =>
      simp only [List.map_nil, sequence, Value.any_endsSequence_unowned]
      split
      · exact congrArg (fun v => finish (.value v)) (hclose last)
      · rfl
    | cons value done => exact ih value done

variable (null : Value)

theorem getD_unowned (v : Option Value) :
    (v.map Value.unowned).getD null.unowned = (v.getD null).unowned := by
  cases v <;> rfl

theorem unowned_application (function : Value) (arguments : List Value)
    (done : List (Option Value)) :
    (application null function arguments done).unowned =
      application null.unowned function.unowned (arguments.map Value.unowned)
        (done.map (·.map Value.unowned)) := by
  cases done with
  | nil =>
    cases function with
    | function id closure =>
      simp only [List.map_nil, application, Value.unowned, List.length_map]
      split <;> rfl
    | _ => rfl
  | cons value done =>
    simp [application, unowned, Ending.unowned]

theorem unowned_operands (function : Value) (values : List Value) (operands : List Node)
    (done : List (Option Value)) :
    (Move.operands null function values operands done).unowned =
      Move.operands null.unowned function.unowned (values.map Value.unowned) operands
        (done.map (·.map Value.unowned)) := by
  induction operands generalizing values done with
  | nil => exact unowned_application null function values done
  | cons operand more ih =>
    cases done with
    | nil => rfl
    | cons value done =>
      rw [List.map_cons, Move.operands, Move.operands, unowned_unlessError, getD_unowned, ih]
      simp

end Move

/-- **The move of a node without owners.** Only operations compare values, and they do it alike among
genuine ones. -/
theorem Node.unowned_move (n : Node) {null : Value} {done : List (Option Value)}
    (hdone : ∀ v ∈ done, (v.getD null).Genuine) :
    (n.move null done).unowned = n.move null.unowned (done.map (·.map Value.unowned)) := by
  cases n with
  | program id statements =>
    exact Move.unowned_sequence _ (fun v => by cases v <;> simp) none statements done
  | block id statements =>
    exact Move.unowned_sequence (fun value => value) (fun _ => rfl) none statements done
  | expressionStatement id expression => cases done <;> rfl
  | returnStatement id operand =>
    cases done with
    | nil => rfl
    | cons value done =>
      simp only [move, List.map_cons, Move.unowned_unlessError, Move.getD_unowned]
      rfl
  | letStatement id target operand =>
    cases done with
    | nil => rfl
    | cons value done =>
      simp only [move, List.map_cons, Move.unowned_unlessError, Move.getD_unowned]
      rfl
  | integer id n => rfl
  | boolean id b => rfl
  | identifier id name => rfl
  | prefixExpression id op operand =>
    cases done with
    | nil => rfl
    | cons right done =>
      simp only [move, List.map_cons, Move.unowned_unlessError, Move.getD_unowned,
        PrefixOp.apply_unowned]
      rfl
  | infixExpression id op first second =>
    rcases done with _ | ⟨left, _ | ⟨right, done⟩⟩
    · rfl
    · simp only [move, List.map_cons, List.map_nil, Move.unowned_unlessError, Move.getD_unowned]
      rfl
    · have hleft : (left.getD null).Genuine := hdone left List.mem_cons_self
      have hright : (right.getD null).Genuine :=
        hdone right (List.mem_cons_of_mem _ List.mem_cons_self)
      simp only [move, List.map_cons, Move.unowned_unlessError, Move.getD_unowned,
        InfixOp.apply_unowned op hleft hright]
      rfl
  | ifExpression id condition consequence alternative =>
    rcases done with _ | ⟨test, _ | ⟨value, done⟩⟩
    · rfl
    · simp only [move, List.map_cons, List.map_nil, Move.unowned_unlessError, Move.getD_unowned,
        Value.isTruthy_unowned]
      congr 1
      split
      · rfl
      · cases alternative <;> rfl
    · rfl
  | functionLiteral id parameters body => rfl
  | call id callee operands =>
    cases done with
    | nil => rfl
    | cons function done =>
      simp only [move, List.map_cons, Move.unowned_unlessError, Move.getD_unowned,
        Move.unowned_operands, List.map_nil]

/-! ## Evaluators -/

/-- The same evaluator without the owners of constants, recording nothing. -/
def Machine.unowned (m : Machine) : Machine :=
  { m with heap := m.heap.unowned, trace := .empty, tracing := false, number := 0 }

/-- What a node ends with without owners. -/
theorem Ending.apply_unowned (ending : Ending) (scope : ScopeId) (m : Machine) :
    ending.unowned.apply scope m.unowned =
      ((ending.apply scope m).1.map Value.unowned, (ending.apply scope m).2.unowned) := by
  cases ending with
  | bind target v =>
    simp only [unowned, apply]
    cases target.name? with
    | none => rfl
    | some name =>
      simp only [Machine.unowned, Heap.unowned_set]
      rfl
  | lookUp name =>
    simp only [unowned, apply]
    rw [show m.unowned.heap.get? scope name = _ from m.heap.get?_unowned scope name]
    cases m.heap.get? scope name <;> rfl
  | result r => cases r <;> rfl
  | _ => rfl

/-! ## Runs -/

/-- The same control without the owners of constants. -/
def Control.unowned : Control → Control
  | enter node scope => enter node scope
  | advance => advance
  | stop value => stop (value.map Value.unowned)

/-- The same frame without the owners of constants, with the step of its entry forgotten. -/
def Frame.unowned (f : Frame) : Frame :=
  { f with opened := 0, done := f.done.map (·.map Value.unowned) }

/-- The same configuration without the owners of constants. -/
def Config.unowned (c : Config) : Config :=
  ⟨c.machine.unowned, c.control.unowned, c.frames.map Frame.unowned⟩

namespace Config

variable {c c' : Config}

theorem unowned_deliver (m : Machine) (value : Option Value) (frames : List Frame) :
    (deliver m value frames).unowned =
      deliver m.unowned (value.map Value.unowned) (frames.map Frame.unowned) := by
  cases frames with
  | nil => rfl
  | cons f rest => simp [deliver, unowned, Control.unowned, Frame.unowned]

/-- **A step does not depend on who owns the constants.** -/
theorem Step.unowned (h : c.Step c') (hparts : ∀ f ∈ c.frames, ∀ v, some v ∈ f.done → v.Genuine) :
    c.unowned.Step c'.unowned := by
  -- what a node does next is the same without owners
  have hmove : ∀ {m : Machine} {f : Frame} {move : Move},
      (∀ v, some v ∈ f.done → v.Genuine) → f.node.move m.null f.done = move →
        f.unowned.node.move m.unowned.null f.unowned.done = move.unowned := by
    intro m f move hdone hmove
    rw [← hmove, f.node.unowned_move fun v hv => Value.kept_genuine.getD hdone hv]
    rfl
  cases h with
  | enter allowed => exact .enter allowed
  | visit move => exact .visit (hmove (hparts _ List.mem_cons_self) move)
  | @call m f rest closure arguments move =>
    have hcall : Step ⟨m.unowned, .advance, f.unowned :: rest.map Frame.unowned⟩ _ :=
      .call (hmove (hparts f List.mem_cons_self) move)
    rw [show m.unowned.heap = m.heap.unowned from rfl, ← Heap.unowned_openCall,
      Heap.size_unowned] at hcall
    exact hcall
  | @finish m f rest ending move =>
    have hfinish : Step ⟨m.unowned, .advance, f.unowned :: rest.map Frame.unowned⟩ _ :=
      .finish (hmove (hparts f List.mem_cons_self) move)
    rw [show f.unowned.scope = f.scope from rfl, Ending.apply_unowned] at hfinish
    rw [unowned_deliver]
    exact hfinish

/-- All values of a run are genuine if those are that scopes bind at the start. -/
theorem Reaches.genuine {m : Machine} (hheap : m.heap.Genuine) {root : Node} {scope : ScopeId}
    (hreach : (start m root scope).Reaches c) :
    c.machine.heap.Genuine ∧ ∀ f ∈ c.frames, ∀ v, some v ∈ f.done → v.Genuine := by
  have hupholds : c.silent.Upholds Value.Genuine Value.Genuine :=
    Reaches.upholds Value.kept_genuine (Reaches.silent hreach)
      (upholds_start Value.kept_genuine (m := m.silent) rfl hheap root scope)
  refine ⟨hupholds.bound, fun f hf v hv => ?_⟩
  exact hupholds.held v (.part (List.mem_map_of_mem hf) hv)

theorem Reaches.unowned {m : Machine} (hheap : m.heap.Genuine) {root : Node} {scope : ScopeId}
    (hreach : (start m root scope).Reaches c) : (start m.unowned root scope).Reaches c.unowned := by
  induction hreach with
  | refl => exact .refl
  | tail hreach hstep ih => exact ih.tail (hstep.unowned (Reaches.genuine hheap hreach).2)

theorem Ended.unowned (h : c.Ended) : c.unowned.Ended := by
  rcases h with ⟨value, hstop⟩ | ⟨⟨node, scope, henter⟩, hlimit⟩
  · exact Or.inl ⟨value.map Value.unowned, by rw [Config.unowned, hstop]; rfl⟩
  · exact Or.inr ⟨⟨node, scope, by rw [Config.unowned, henter]; rfl⟩, hlimit⟩

theorem outcome_unowned (c : Config) (depth : Nat) :
    c.unowned.outcome depth =
      ((c.outcome depth).1.map (·.map Value.unowned), (c.outcome depth).2.unowned) := by
  obtain ⟨m, control, frames⟩ := c
  cases control <;> rfl

end Config

namespace Machine

/-- **What an evaluation comes to does not depend on who owns the constants,** and its heap is genuine
again. -/
theorem eval_unowned {m : Machine} (hheap : m.heap.Genuine) (node : Node) (scope : ScopeId) :
    m.unowned.eval node scope =
        ((m.eval node scope).1.map (·.map Value.unowned), (m.eval node scope).2.unowned) ∧
      (m.eval node scope).2.heap.Genuine := by
  obtain ⟨c, hreach, hended, hm, _⟩ := m.eval_ended node scope
  refine ⟨?_, by rw [hm]; exact (Config.Reaches.genuine hheap hreach).1⟩
  have hunowned : m.unowned.eval node scope = c.unowned.outcome m.depth :=
    eval_eq_outcome (Config.Reaches.unowned hheap hreach) hended.unowned
  rw [hunowned, eval_eq_outcome hreach hended]
  exact c.outcome_unowned m.depth

end Machine

end TraceTree

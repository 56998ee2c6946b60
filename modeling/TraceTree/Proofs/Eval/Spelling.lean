import TraceTree.Proofs.Eval.Identity
import TraceTree.Proofs.Eval.Keeping

set_option autoImplicit false

/-! # Evaluations make up no names

The names in the values of an evaluation come from the tree that is evaluated and from what the
scopes bind: a function keeps its parameters and its body as they are, and a fault about a name is
about one that was looked up. So if all names there are known ones, they are so in every value of the
evaluation (`Config.Reaches.spelledWith`), whatever is meant by known. No evaluation makes a fault in
words of its own. -/

namespace TraceTree

variable {known : String → Prop}

/-! ## Nodes, faults and values -/

/-- All names in a node are known. -/
def Node.SpelledWith (known : String → Prop) (n : Node) : Prop :=
  ∀ id name, n.Within (.identifier id name) → known name

/-- A name in a fault is known, and the words of a fault are not made by hand. -/
def Fault.SpelledWith (known : String → Prop) : Fault → Prop
  | unboundIdentifier name => known name
  | stated _ => False
  | _ => True

/-- All names in a function are known. -/
def Closure.SpelledWith (known : String → Prop) (closure : Closure) : Prop :=
  ∀ n ∈ closure.parameters ++ [closure.body], n.SpelledWith known

/-- All names in a value are known. -/
def Value.SpelledWith (known : String → Prop) : Value → Prop
  | returned _ inner => inner.SpelledWith known
  | error _ fault => fault.SpelledWith known
  | function _ closure => closure.SpelledWith known
  | _ => True

namespace Node.SpelledWith

theorem child {n part : Node} (h : n.SpelledWith known) (mem : part ∈ n.children) :
    part.SpelledWith known :=
  fun id name hname => h id name ((Within.self.child mem).trans hname)

theorem name {id : NodeId} {name : String} (h : (identifier id name).SpelledWith known) :
    known name := h id name .self

/-- The names in a node are its own name and those in its children. -/
theorem of_children {n : Node} (hself : ∀ id name, n = .identifier id name → known name)
    (h : ∀ part ∈ n.children, part.SpelledWith known) : n.SpelledWith known := by
  intro id name hname
  rcases hname.eq_or_child with heq | ⟨part, hpart, hname⟩
  · exact hself id name heq.symm
  · exact h part hpart id name hname

end Node.SpelledWith

theorem Value.SpelledWith.unwrapped {v : Value} (h : v.SpelledWith known) :
    v.unwrapped.SpelledWith known := by
  cases v <;> exact h

theorem Value.spelledWith_getD {null : Value} (hnull : null.SpelledWith known)
    {v : Option Value} (hv : ∀ u, v = some u → u.SpelledWith known) :
    (v.getD null).SpelledWith known := by
  cases v with
  | none => exact hnull
  | some u => exact hv u rfl

/-! ## Moves -/

/-- A fault that an operation gives has no name in it. -/
def Result.SpelledWith (known : String → Prop) : Result → Prop
  | .fault cause => cause.SpelledWith known
  | _ => True

theorem PrefixOp.spelledWith_apply (op : PrefixOp) (right : Value) :
    (op.apply right).SpelledWith known := by
  unfold apply
  split <;> trivial

theorem InfixOp.spelledWith_apply (op : InfixOp) (left right : Value) :
    (op.apply left right).SpelledWith known := by
  unfold apply
  split
  · cases op <;> simp only [applyIntegers] <;> (try split) <;> trivial
  · split
    · trivial
    · trivial
    · split <;> trivial

/-- All names in what a node ends with are known. -/
def Ending.SpelledWith (known : String → Prop) : Ending → Prop
  | value v => ∀ u, v = some u → u.SpelledWith known
  | wrap v | bind _ v => v.SpelledWith known
  | lookUp name => known name
  | close parameters body => ∀ n ∈ parameters ++ [body], n.SpelledWith known
  | result r => r.SpelledWith known

/-- All names in what a node does next are known. -/
def Move.SpelledWith (known : String → Prop) : Move → Prop
  | visit part => part.SpelledWith known
  | call closure arguments =>
    closure.SpelledWith known ∧ ∀ v ∈ arguments, v.SpelledWith known
  | finish ending => ending.SpelledWith known

namespace Move

variable {null value function : Value} {statements : List Node} {done : List (Option Value)}

theorem spelledWith_unlessError {move : Move} (hvalue : value.SpelledWith known)
    (hmove : move.SpelledWith known) : (unlessError value move).SpelledWith known := by
  unfold unlessError
  split
  · rintro u ⟨⟩
    exact hvalue
  · exact hmove

theorem spelledWith_sequence {close : Option Value → Option Value} {last : Option Value}
    (hclose : ∀ v, (∀ u, v = some u → u.SpelledWith known) →
      ∀ u, close v = some u → u.SpelledWith known)
    (hlast : ∀ u, last = some u → u.SpelledWith known)
    (hstatements : ∀ n ∈ statements, n.SpelledWith known)
    (hdone : ∀ v, some v ∈ done → v.SpelledWith known) :
    (sequence close last statements done).SpelledWith known := by
  induction statements generalizing last done with
  | nil => exact hclose last hlast
  | cons statement more ih =>
    obtain ⟨hstatement, hmore⟩ := List.forall_mem_cons.mp hstatements
    cases done with
    | nil =>
      rw [sequence]
      split
      · exact hclose last hlast
      · exact hstatement
    | cons v done =>
      refine ih (fun u hu => hdone u ?_) hmore fun u hu => hdone u (List.mem_cons_of_mem _ hu)
      rw [hu]
      exact List.mem_cons_self

theorem spelledWith_application {arguments : List Value} (hnull : null.SpelledWith known)
    (hfunction : function.SpelledWith known) (harguments : ∀ v ∈ arguments, v.SpelledWith known)
    (hdone : ∀ v, some v ∈ done → v.SpelledWith known) :
    (application null function arguments done).SpelledWith known := by
  unfold application
  split
  · split
    · split
      · exact ⟨hfunction, harguments⟩
      · trivial
    · trivial
  · next result more =>
    rintro u ⟨⟩
    refine (Value.spelledWith_getD hnull fun v hv => hdone v ?_).unwrapped
    rw [hv]
    exact List.mem_cons_self

theorem spelledWith_operands {values : List Value} {operands : List Node}
    (hnull : null.SpelledWith known) (hfunction : function.SpelledWith known)
    (hvalues : ∀ v ∈ values, v.SpelledWith known)
    (hoperands : ∀ n ∈ operands, n.SpelledWith known)
    (hdone : ∀ v, some v ∈ done → v.SpelledWith known) :
    (Move.operands null function values operands done).SpelledWith known := by
  induction operands generalizing values done with
  | nil => exact spelledWith_application hnull hfunction hvalues hdone
  | cons operand more ih =>
    obtain ⟨hoperand, hmore⟩ := List.forall_mem_cons.mp hoperands
    cases done with
    | nil => exact hoperand
    | cons v done =>
      have hv : (v.getD null).SpelledWith known := by
        refine Value.spelledWith_getD hnull fun u hu => hdone u ?_
        rw [hu]
        exact List.mem_cons_self
      refine spelledWith_unlessError hv (ih ?_ hmore fun u hu => hdone u (List.mem_cons_of_mem _ hu))
      rintro u hu
      rcases List.mem_append.mp hu with hu | hu
      · exact hvalues u hu
      · rw [List.mem_singleton.mp hu]
        exact hv

end Move

/-- **A node makes up no names.** -/
theorem Node.spelledWith_move {null : Value} {n : Node} {done : List (Option Value)}
    (hn : n.SpelledWith known) (hnull : null.SpelledWith known)
    (hdone : ∀ v, some v ∈ done → v.SpelledWith known) :
    (n.move null done).SpelledWith known := by
  have hvalue : ∀ v ∈ done, (v.getD null).SpelledWith known := by
    intro v hv
    refine Value.spelledWith_getD hnull fun u hu => hdone u ?_
    rwa [← hu]
  cases n with
  | program id statements =>
    refine Move.spelledWith_sequence (fun v hv u hu => ?_) nofun (fun _ => hn.child) hdone
    obtain ⟨w, hw, rfl⟩ := Option.map_eq_some_iff.mp hu
    exact (hv w hw).unwrapped
  | block id statements =>
    exact Move.spelledWith_sequence (fun _ hv => hv) nofun (fun _ => hn.child) hdone
  | expressionStatement id expression =>
    cases done with
    | nil => exact hn.child List.mem_cons_self
    | cons v done => exact fun u hu => hdone u (by simp [hu])
  | returnStatement id operand =>
    cases done with
    | nil => exact hn.child List.mem_cons_self
    | cons v done =>
      have hv := hvalue v List.mem_cons_self
      exact Move.spelledWith_unlessError hv hv
  | letStatement id target operand =>
    cases done with
    | nil => exact hn.child (List.mem_cons_of_mem _ List.mem_cons_self)
    | cons v done =>
      have hv := hvalue v List.mem_cons_self
      exact Move.spelledWith_unlessError hv hv
  | integer id value => trivial
  | boolean id value => trivial
  | identifier id name => exact hn.name
  | prefixExpression id op operand =>
    cases done with
    | nil => exact hn.child List.mem_cons_self
    | cons right done =>
      exact Move.spelledWith_unlessError (hvalue right List.mem_cons_self) (op.spelledWith_apply _)
  | infixExpression id op first second =>
    rcases done with _ | ⟨left, _ | ⟨right, done⟩⟩
    · exact hn.child List.mem_cons_self
    · exact Move.spelledWith_unlessError (hvalue left List.mem_cons_self)
        (hn.child (List.mem_cons_of_mem _ List.mem_cons_self))
    · exact Move.spelledWith_unlessError (hvalue right (List.mem_cons_of_mem _ List.mem_cons_self))
        (op.spelledWith_apply _ _)
  | ifExpression id condition consequence alternative =>
    rcases done with _ | ⟨test, _ | ⟨v, done⟩⟩
    · exact hn.child List.mem_cons_self
    · refine Move.spelledWith_unlessError (hvalue test List.mem_cons_self) ?_
      split
      · exact hn.child (List.mem_cons_of_mem _ List.mem_cons_self)
      · cases alternative with
        | none =>
          rintro u ⟨⟩
          exact hnull
        | some other =>
          exact hn.child (List.mem_cons_of_mem _ (List.mem_cons_of_mem _ List.mem_cons_self))
    · exact fun u hu => hdone u (by simp [hu])
  | functionLiteral id parameters body => exact fun _ => hn.child
  | call id callee operands =>
    cases done with
    | nil => exact hn.child List.mem_cons_self
    | cons function done =>
      have hfunction := hvalue function List.mem_cons_self
      exact Move.spelledWith_unlessError hfunction (Move.spelledWith_operands hnull hfunction nofun
        (fun _ ho => hn.child (List.mem_cons_of_mem _ ho))
        fun u hu => hdone u (List.mem_cons_of_mem _ hu))

/-! ## What becomes of the evaluator -/

/-- All names in the values that scopes bind are known. -/
def Heap.SpelledWith (known : String → Prop) (h : Heap) : Prop :=
  ∀ s name v, h.Binds s name v → v.SpelledWith known

/-- **What a node ends with has known names,** and so have the values that are bound then. -/
theorem Ending.spelledWith_apply {ending : Ending} {m : Machine} (hheap : m.heap.SpelledWith known)
    (hending : ending.SpelledWith known) (scope : ScopeId) :
    (ending.apply scope m).2.heap.SpelledWith known ∧
      ∀ v, (ending.apply scope m).1 = some v → v.SpelledWith known := by
  cases ending with
  | value v => exact ⟨hheap, hending⟩
  | wrap v =>
    refine ⟨hheap, ?_⟩
    rintro u ⟨⟩
    exact hending
  | bind target v =>
    rw [apply]
    split
    · refine ⟨fun s name u hu => ?_, fun _ hu => (by cases hu)⟩
      rcases Heap.Binds.of_set hu with rfl | hold
      · exact hending
      · exact hheap s name u hold
    · exact ⟨hheap, fun _ hu => (by cases hu)⟩
  | lookUp name =>
    rw [apply]
    split
    · next v hget =>
      refine ⟨hheap, ?_⟩
      rintro u ⟨⟩
      obtain ⟨t, ht⟩ := Heap.exists_binds_of_get? hget
      exact hheap t name _ ht
    · refine ⟨hheap, ?_⟩
      rintro u ⟨⟩
      exact hending
  | close parameters body =>
    refine ⟨hheap, ?_⟩
    rintro u ⟨⟩
    exact hending
  | result r =>
    cases r with
    | integer n | boolean b =>
      refine ⟨hheap, ?_⟩
      rintro u ⟨⟩
      trivial
    | fault cause =>
      refine ⟨hheap, ?_⟩
      rintro u ⟨⟩
      exact hending

/-- The parameters of a call are bound to its arguments. -/
theorem Heap.SpelledWith.openCall {h : Heap} (hheap : h.SpelledWith known) (closure : Closure)
    {arguments : List Value} (harguments : ∀ v ∈ arguments, v.SpelledWith known) :
    (h.openCall closure arguments).SpelledWith known := by
  intro s name v hv
  rcases Heap.Binds.of_openCall hv with hlast | hold
  · obtain ⟨pair, hpair, rfl⟩ := List.mem_map.mp (mem_of_lastNamed hlast)
    exact harguments _ (List.of_mem_zip hpair).2
  · exact hheap s name v hold

/-! ## Runs -/

namespace Config

/-- All names in the values and the nodes of a configuration are known. -/
structure SpelledWith (known : String → Prop) (c : Config) : Prop where
  heap : c.machine.heap.SpelledWith known
  done : ∀ f ∈ c.frames, ∀ v, some v ∈ f.done → v.SpelledWith known
  events : ∀ e ∈ c.machine.events, ∀ v, e.value? = some v → v.SpelledWith known
  frames : ∀ f ∈ c.frames, f.node.SpelledWith known
  asked : ∀ node scope, c.control = .enter node scope → node.SpelledWith known

variable {c c' : Config}

/-- **A step makes up no names.** -/
theorem Step.spelledWith (hstep : c.Step c') (h : c.SpelledWith known) : c'.SpelledWith known := by
  obtain ⟨hheap, hdone, hevents, hframes, hasked⟩ := h
  -- the move of the innermost node
  have hmove : ∀ {m : Machine} {f : Frame} {rest : List Frame}, c = ⟨m, .advance, f :: rest⟩ →
      (f.node.move m.null f.done).SpelledWith known := by
    rintro m f rest rfl
    exact Node.spelledWith_move (hframes f List.mem_cons_self) trivial (hdone f List.mem_cons_self)
  cases hstep with
  | @enter m node scope frames allowed =>
    refine ⟨hheap, ?_, fun e he v hv => hevents e (Machine.mem_events_of_enter he hv) v hv, ?_, nofun⟩
    · exact List.forall_mem_cons.mpr ⟨fun _ hv => absurd hv List.not_mem_nil, hdone⟩
    · exact List.forall_mem_cons.mpr ⟨hasked node scope rfl, hframes⟩
  | @visit m f rest part move =>
    have hpart := hmove rfl
    rw [move] at hpart
    refine ⟨hheap, hdone, hevents, hframes, ?_⟩
    rintro node scope ⟨⟩
    exact hpart
  | @call m f rest closure arguments move =>
    have hcall := hmove rfl
    rw [move] at hcall
    refine ⟨hheap.openCall closure hcall.2, hdone, hevents, hframes, ?_⟩
    rintro node scope ⟨⟩
    exact hcall.1 _ (List.mem_append_right _ List.mem_cons_self)
  | @finish m f rest ending move =>
    have hending := hmove rfl
    rw [move] at hending
    obtain ⟨hheap', hvalue⟩ := Ending.spelledWith_apply hheap hending f.scope
    refine ⟨?_, ?_, ?_, ?_, ?_⟩
    · rw [machine_deliver]
      exact hheap'
    · -- only the frame that waits for the value gets a new one
      intro g hg v hv
      obtain ⟨f', hf', _, _, hparts⟩ := of_mem_deliver hg
      rcases hparts v hv with hnew | hold
      · exact hvalue v hnew
      · exact hdone f' (List.mem_cons_of_mem _ hf') v hold
    · rw [machine_deliver]
      intro e he v hv
      rcases Machine.mem_events_of_leave he hv with hold | hnew
      · rw [Ending.events_apply] at hold
        exact hevents e hold v hv
      · exact hvalue v hnew
    · intro g hg
      obtain ⟨f', hf', hnode, _⟩ := of_mem_deliver hg
      rw [hnode]
      exact hframes f' (List.mem_cons_of_mem _ hf')
    · exact fun _ _ hcontrol => absurd hcontrol control_deliver_ne_enter

/-- **Every moment of a run** has known names only, if the scopes and the tree had at the start. -/
theorem Reaches.spelledWith (hreach : c.Reaches c') (h : c.SpelledWith known) :
    c'.SpelledWith known := by
  induction hreach with
  | refl => exact h
  | tail _ hstep ih => exact hstep.spelledWith ih

theorem spelledWith_start {m : Machine} (hevents : m.events = []) (hheap : m.heap.SpelledWith known)
    {root : Node} (hroot : root.SpelledWith known) (scope : ScopeId) :
    (start m root scope).SpelledWith known := by
  refine ⟨hheap, nofun, ?_, nofun, ?_⟩
  · intro e he
    rw [start, hevents] at he
    exact absurd he List.not_mem_nil
  · rintro node scope' ⟨⟩
    exact hroot

end Config

/-- **An evaluation makes up no names,** whether it ends or is given up. -/
theorem Machine.spelledWith_eval {m : Machine} (hevents : m.events = [])
    (hheap : m.heap.SpelledWith known) {root : Node} (hroot : root.SpelledWith known)
    (scope : ScopeId) :
    (m.eval root scope).2.heap.SpelledWith known ∧
      ∀ e ∈ (m.eval root scope).2.events, ∀ v, e.value? = some v → v.SpelledWith known := by
  obtain ⟨c, hreach, hheap', htrace, _⟩ := m.eval_reaches root scope
  have hend := hreach.spelledWith (Config.spelledWith_start hevents hheap hroot scope)
  rw [events, hheap', htrace]
  exact ⟨hend.heap, hend.events⟩

end TraceTree

import TraceTree.Diagram.Drawing
import TraceTree.Proofs.Eval.Identity

set_option autoImplicit false

/-! # What drawings cover

A drawing leaves out the body of a function where the function is drawn as a cycle or as a
reference. It does so only for a body that is being drawn further up or was drawn before, so nothing
is lost: `Covered` is what drawing keeps to, and the lemmas here say how it carries over from parts
to what is put together from them.

While a diagram is being drawn, the body of a function counts as settled if it occurs in what was
drawn, or if it is not open. A value counts as settled if its functions have settled bodies or if it
was numbered before, since whatever is in it was settled then. -/

namespace TraceTree

namespace Diagram

/-- The parts of a diagram. -/
def parts : Diagram → List Diagram
  | node _ _ _ parts | field _ parts | value _ _ parts => parts
  | result _ drawing => [drawing]
  | _ => []

/-- A diagram is another one, or has it for a part. -/
inductive Contains : Diagram → Diagram → Prop where
  | self {d : Diagram} : Contains d d
  | part {d part inner : Diagram} (mem : part ∈ d.parts) (contains : Contains part inner) :
      Contains d inner

/-- Whether a diagram shows a node. -/
def isNode : Diagram → Bool
  | node _ _ _ _ => true
  | _ => false

end Diagram

namespace Scene

/-- The exits of a node, as they are annotated. -/
def exitVisits (s : Scene) (n : Node) : List Visit :=
  (s.exitsOf n).map (fun e => ⟨e.step, s.trace.scopeNumber e.scope⟩)

/-- A node occurs among diagrams, with all its entries and exits and a result for each exit. -/
def Occurs (s : Scene) (ds : List Diagram) (n : Node) : Prop :=
  ∃ d ∈ ds, ∃ parts, d.Contains (.node n (s.entriesOf n) (s.exitVisits n) parts) ∧
    ∀ e ∈ s.exitsOf n, ∃ drawing, .result e.step drawing ∈ parts

/-- A value is left by an exit, or wrapped by one that is. -/
def Holds (s : Scene) (v : Value) : Prop :=
  ∃ e ∈ s.trace.events.toList, ∃ u, e.value? = some u ∧ v ∈ u.layers

/-- The identities of the values and of the bodies of functions tell them apart. -/
structure Faithful (s : Scene) : Prop where
  values : ∀ u v, s.Holds u → s.Holds v → u.id = v.id → u = v
  bodies : ∀ id closure id' closure', s.Holds (.function id closure) →
    s.Holds (.function id' closure') → closure.body.id = closure'.body.id →
      closure.body = closure'.body

/-- A body is drawn, or it is not open. -/
def Settles (s : Scene) (bodies : List NodeId) (ds : List Diagram) (body : Node) : Prop :=
  s.Occurs ds body ∨ body.id ∉ bodies

end Scene

/-- A value was numbered before, or the bodies of its functions are settled. -/
def Value.Settled (seen : List Value) (settles : Node → Prop) : Value → Prop
  | returned id inner => returned id inner ∈ seen ∨ inner.Settled seen settles
  | function id closure => function id closure ∈ seen ∨ settles closure.body
  | _ => True

/-- What is in a value is settled. -/
def Value.Resolved (seen : List Value) (settles : Node → Prop) : Value → Prop
  | returned _ inner => inner.Settled seen settles
  | function _ closure => settles closure.body
  | _ => True

/-- What drawing keeps to: `seen` are the values numbered before, `after` those numbered then. -/
structure Covered (s : Scene) (bodies : List NodeId) (seen after : List Value)
    (ds : List Diagram) : Prop where
  /-- Only values of the scene are numbered. -/
  holds : ∀ u ∈ after, s.Holds u
  /-- A node is drawn with its fields. -/
  fields : ∀ n, s.Occurs ds n → ∀ part ∈ n.children, s.Occurs ds part
  /-- A node is drawn with its values. -/
  exits : ∀ n, s.Occurs ds n → ∀ e ∈ s.exitsOf n, ∀ v, e.value? = some v →
    v.Settled seen (s.Settles bodies ds)
  /-- A value that was numbered newly is drawn. -/
  numbered : ∀ u ∈ after, u ∈ seen ∨ u.Resolved seen (s.Settles bodies ds)

section

variable {s : Scene} {bodies : List NodeId} {seen seen' after : List Value}
  {ds ds' : List Diagram} {settles settles' : Node → Prop} {v : Value}

theorem Value.Resolved.settled (h : v.Resolved seen settles) : v.Settled seen settles := by
  cases v <;> first | trivial | exact Or.inr h

theorem Value.settled_of_mem (h : v ∈ seen) : v.Settled seen settles := by
  cases v <;> first | trivial | exact Or.inl h

/-- What was settled with regard to the values numbered in between is settled. -/
theorem Value.Settled.trans (hseen : ∀ u ∈ seen', u ∈ seen ∨ u.Resolved seen settles)
    (h : v.Settled seen' settles) : v.Settled seen settles := by
  have hmem : ∀ u ∈ seen', u.Settled seen settles := fun u hu =>
    (hseen u hu).elim Value.settled_of_mem Value.Resolved.settled
  induction v with
  | returned id inner ih =>
    rcases h with h | h
    · exact hmem _ h
    · exact Or.inr (ih h)
  | function id closure =>
    rcases h with h | h
    · exact hmem _ h
    · exact Or.inr h
  | _ => trivial

/-- A value is not settled by the number of a greater one. -/
theorem Value.Settled.of_concat {u : Value} (hlt : sizeOf v < sizeOf u)
    (h : v.Settled (seen ++ [u]) settles) : v.Settled seen settles := by
  have hmem : ∀ w : Value, sizeOf w < sizeOf u → w ∈ seen ++ [u] → w ∈ seen := by
    intro w hw hmem
    rcases List.mem_append.mp hmem with hmem | hmem
    · exact hmem
    · rw [List.mem_singleton.mp hmem] at hw
      exact absurd hw (Nat.lt_irrefl _)
  induction v with
  | returned id inner ih =>
    rcases h with h | h
    · exact Or.inl (hmem _ hlt h)
    · refine Or.inr (ih ?_ h)
      simp only [returned.sizeOf_spec] at hlt
      omega
  | function id closure =>
    rcases h with h | h
    · exact Or.inl (hmem _ hlt h)
    · exact Or.inr h
  | _ => trivial

theorem Value.Resolved.trans (hseen : ∀ u ∈ seen', u ∈ seen ∨ u.Resolved seen settles)
    (h : v.Resolved seen' settles) : v.Resolved seen settles := by
  cases v with
  | returned id inner => exact Value.Settled.trans hseen h
  | function id closure => exact h
  | _ => trivial

theorem Value.Resolved.of_concat (h : v.Resolved (seen ++ [v]) settles) :
    v.Resolved seen settles := by
  cases v with
  | returned id inner =>
    refine Value.Settled.of_concat ?_ h
    simp only [returned.sizeOf_spec]
    omega
  | function id closure => exact h
  | _ => trivial

theorem Value.Settled.imp
    (himp : ∀ id closure, .function id closure ∈ v.layers → settles closure.body →
      settles' closure.body)
    (h : v.Settled seen settles) : v.Settled seen settles' := by
  induction v with
  | returned id inner ih =>
    exact Or.imp_right (ih fun id closure hmem => himp id closure (List.mem_cons_of_mem _ hmem)) h
  | function id closure => exact Or.imp_right (himp id closure List.mem_cons_self) h
  | _ => trivial

theorem Value.Resolved.imp
    (himp : ∀ id closure, .function id closure ∈ v.layers → settles closure.body →
      settles' closure.body)
    (h : v.Resolved seen settles) : v.Resolved seen settles' := by
  cases v with
  | returned id inner =>
    exact Value.Settled.imp (fun id closure hmem => himp id closure (List.mem_cons_of_mem _ hmem)) h
  | function id closure => exact himp id closure List.mem_cons_self h
  | _ => trivial

theorem Scene.Holds.layer {u : Value} (h : s.Holds v) (hu : u ∈ v.layers) : s.Holds u := by
  obtain ⟨e, he, w, hw, hv⟩ := h
  exact ⟨e, he, w, hw, Value.layers_trans hv hu⟩

theorem Scene.exit_of_mem {n : Node} {e : Event} (he : e ∈ s.exitsOf n) :
    e ∈ s.trace.events.toList ∧ e.isEntry = false := by
  obtain ⟨hmem, hexit⟩ := List.mem_filter.mp he
  simp only [Bool.and_eq_true, Bool.not_eq_true'] at hexit
  exact ⟨hmem, hexit.1⟩

theorem Scene.holds_of_exit {n : Node} {e : Event} (he : e ∈ s.exitsOf n) (hv : e.value? = some v) :
    s.Holds v :=
  ⟨e, (Scene.exit_of_mem he).1, v, hv, v.mem_layers⟩

/-! ## Occurrences -/

namespace Scene

theorem occurs_append {n : Node} :
    s.Occurs (ds ++ ds') n ↔ s.Occurs ds n ∨ s.Occurs ds' n := by
  constructor
  · rintro ⟨d, hd, h⟩
    exact (List.mem_append.mp hd).imp (fun hd => ⟨d, hd, h⟩) (fun hd => ⟨d, hd, h⟩)
  · rintro (⟨d, hd, h⟩ | ⟨d, hd, h⟩)
    · exact ⟨d, List.mem_append_left _ hd, h⟩
    · exact ⟨d, List.mem_append_right _ hd, h⟩

theorem occurs_of_parts {d : Diagram} {n : Node} (h : s.Occurs d.parts n) : s.Occurs [d] n := by
  obtain ⟨part, hpart, parts, hcontains, hresults⟩ := h
  exact ⟨d, List.mem_singleton_self d, parts, .part hpart hcontains, hresults⟩

theorem occurs_parts_of_not_isNode {d : Diagram} (hd : d.isNode = false) {n : Node}
    (h : s.Occurs [d] n) : s.Occurs d.parts n := by
  obtain ⟨d', hd', parts, hcontains, hresults⟩ := h
  obtain rfl := List.mem_singleton.mp hd'
  cases hcontains with
  | self => cases hd
  | part mem contains => exact ⟨_, mem, parts, contains, hresults⟩

theorem occurs_node {n m : Node} {entries exits : List Visit} {parts : List Diagram}
    (h : s.Occurs [.node n entries exits parts] m) : m = n ∨ s.Occurs parts m := by
  obtain ⟨d', hd', parts', hcontains, hresults⟩ := h
  obtain rfl := List.mem_singleton.mp hd'
  cases hcontains with
  | self => exact Or.inl rfl
  | part mem contains => exact Or.inr ⟨_, mem, parts', contains, hresults⟩

end Scene

end

/-! ## Drawings put together -/

namespace Covered

variable {s : Scene} {bodies : List NodeId} {seen seen' after : List Value}
  {ds ds' : List Diagram} {v : Value}

/-- More drawn, more settled. -/
theorem settles_mono (hsub : ∀ n, s.Occurs ds n → s.Occurs ds' n) {b : Node}
    (h : s.Settles bodies ds b) : s.Settles bodies ds' b :=
  h.imp_left (hsub b)

theorem nil (hseen : ∀ u ∈ seen, s.Holds u) : Covered s bodies seen seen [] where
  holds := hseen
  fields := fun _ ⟨_, hd, _⟩ => absurd hd List.not_mem_nil
  exits := fun _ ⟨_, hd, _⟩ => absurd hd List.not_mem_nil
  numbered := fun _ hu => Or.inl hu

theorem settles_left {b : Node} (h : s.Settles bodies ds b) : s.Settles bodies (ds ++ ds') b :=
  settles_mono (fun _ hn => Scene.occurs_append.mpr (Or.inl hn)) h

theorem settles_right {b : Node} (h : s.Settles bodies ds' b) : s.Settles bodies (ds ++ ds') b :=
  settles_mono (fun _ hn => Scene.occurs_append.mpr (Or.inr hn)) h

theorem numbered_append (h : Covered s bodies seen seen' ds) :
    ∀ u ∈ seen', u ∈ seen ∨ u.Resolved seen (s.Settles bodies (ds ++ ds')) :=
  fun u hu => (h.numbered u hu).imp_right (Value.Resolved.imp fun _ _ _ => settles_left)

/-- What is settled after a drawing is settled with it. -/
theorem settled_append (h : Covered s bodies seen seen' ds)
    (hv : v.Settled seen' (s.Settles bodies ds')) :
    v.Settled seen (s.Settles bodies (ds ++ ds')) :=
  Value.Settled.trans h.numbered_append (hv.imp fun _ _ _ => settles_right)

/-- One drawing after the other. -/
theorem append (h : Covered s bodies seen seen' ds) (h' : Covered s bodies seen' after ds') :
    Covered s bodies seen after (ds ++ ds') := by
  refine ⟨h'.holds, ?_, ?_, ?_⟩
  · intro n hn part hpart
    rcases Scene.occurs_append.mp hn with hn | hn
    · exact Scene.occurs_append.mpr (Or.inl (h.fields n hn part hpart))
    · exact Scene.occurs_append.mpr (Or.inr (h'.fields n hn part hpart))
  · intro n hn e he v hv
    rcases Scene.occurs_append.mp hn with hn | hn
    · exact (h.exits n hn e he v hv).imp fun _ _ _ => settles_left
    · exact h.settled_append (h'.exits n hn e he v hv)
  · intro u hu
    rcases h'.numbered u hu with hu | hu
    · exact h.numbered_append u hu
    · exact Or.inr (Value.Resolved.trans h.numbered_append (hu.imp fun _ _ _ => settles_right))

/-- Drawings with something around them. -/
theorem enclose {d : Diagram} (hd : d.isNode = false) (h : Covered s bodies seen after d.parts) :
    Covered s bodies seen after [d] := by
  have hmono : ∀ b, s.Settles bodies d.parts b → s.Settles bodies [d] b :=
    fun b => settles_mono fun n hn => Scene.occurs_of_parts hn
  refine ⟨h.holds, ?_, ?_, ?_⟩
  · intro n hn part hpart
    exact Scene.occurs_of_parts (h.fields n (Scene.occurs_parts_of_not_isNode hd hn) part hpart)
  · intro n hn e he v hv
    exact (h.exits n (Scene.occurs_parts_of_not_isNode hd hn) e he v hv).imp fun _ _ _ => hmono _
  · exact fun u hu => (h.numbered u hu).imp_right (Value.Resolved.imp fun _ _ _ => hmono _)

/-- A leaf. -/
theorem leaf {d : Diagram} (hd : d.isNode = false) (hparts : d.parts = [])
    (hseen : ∀ u ∈ seen, s.Holds u) : Covered s bodies seen seen [d] := by
  refine enclose hd ?_
  rw [hparts]
  exact nil hseen

/-- A value that is drawn, whether it was numbered before that or not. -/
theorem conclude {d : Diagram} (hseen : seen' = seen ∨ seen' = seen ++ [v])
    (h : Covered s bodies seen' after [d]) (hv : v.Resolved seen' (s.Settles bodies [d])) :
    Covered s bodies seen after [d] ∧ v.Settled seen (s.Settles bodies [d]) := by
  rcases hseen with rfl | rfl
  · exact ⟨h, hv.settled⟩
  · -- the value has its number while it is drawn, but nothing in it can refer to that number
    have hres := hv.of_concat
    have hseen : ∀ u ∈ seen ++ [v], u ∈ seen ∨ u.Resolved seen (s.Settles bodies [d]) := by
      intro u hu
      rcases List.mem_append.mp hu with hu | hu
      · exact Or.inl hu
      · rw [List.mem_singleton.mp hu]
        exact Or.inr hres
    refine ⟨⟨h.holds, h.fields, ?_, ?_⟩, hres.settled⟩
    · exact fun n hn e he v hv => Value.Settled.trans hseen (h.exits n hn e he v hv)
    · exact fun u hu => (h.numbered u hu).elim (hseen u) fun hu => Or.inr (hu.trans hseen)

/-- A body that is drawn may be left out further down. -/
theorem reopen (hs : s.Faithful) {id : ValueId} {closure : Closure}
    (hv : s.Holds (.function id closure)) (hbody : s.Occurs ds closure.body)
    (h : Covered s (bodies.filter (· != closure.body.id)) seen after ds) :
    Covered s bodies seen after ds := by
  have hsettles : ∀ u, s.Holds u → ∀ id' closure', .function id' closure' ∈ u.layers →
      s.Settles (bodies.filter (· != closure.body.id)) ds closure'.body →
        s.Settles bodies ds closure'.body := by
    intro u hu id' closure' hmem hset
    rcases hset with hocc | hclosed
    · exact Or.inl hocc
    · -- not open further down: it is the body being drawn, or it was not open here either
      by_cases hsame : closure'.body.id = closure.body.id
      · left
        rw [hs.bodies _ _ _ _ (hu.layer hmem) hv hsame]
        exact hbody
      · right
        intro hmem'
        exact hclosed (List.mem_filter.mpr ⟨hmem', by simpa using hsame⟩)
  refine ⟨h.holds, h.fields, ?_, ?_⟩
  · intro n hn e he v hv'
    exact (h.exits n hn e he v hv').imp (hsettles v (Scene.holds_of_exit he hv'))
  · exact fun u hu => (h.numbered u hu).imp_right (Value.Resolved.imp (hsettles u (h.holds u hu)))

end Covered

/-- Diagrams drawn one after the other, among which some nodes occur. -/
structure Drawn (s : Scene) (bodies : List NodeId) (seen after : List Value)
    (ds : List Diagram) (nodes : List Node) : Prop where
  covered : Covered s bodies seen after ds
  occurs : ∀ n ∈ nodes, s.Occurs ds n

/-- The results of exits, drawn one after the other. -/
structure DrawnResults (s : Scene) (bodies : List NodeId) (seen after : List Value)
    (ds : List Diagram) (exits : List Event) : Prop where
  covered : Covered s bodies seen after ds
  result : ∀ e ∈ exits, ∃ drawing, .result e.step drawing ∈ ds
  settled : ∀ e ∈ exits, ∀ v, e.value? = some v → v.Settled seen (s.Settles bodies ds)

namespace DrawnResults

variable {s : Scene} {bodies : List NodeId} {seen seen' after : List Value}
  {ds : List Diagram} {exits : List Event}

theorem nil (hseen : ∀ u ∈ seen, s.Holds u) : DrawnResults s bodies seen seen [] [] :=
  ⟨.nil hseen, fun _ he => absurd he List.not_mem_nil, fun _ he => absurd he List.not_mem_nil⟩

theorem cons {e : Event} {drawing : Diagram} (h : Covered s bodies seen seen' [drawing])
    (hv : ∀ v, e.value? = some v → v.Settled seen (s.Settles bodies [drawing]))
    (h' : DrawnResults s bodies seen' after ds exits) :
    DrawnResults s bodies seen after (.result e.step drawing :: ds) (e :: exits) := by
  have hresult : Covered s bodies seen seen' [.result e.step drawing] :=
    .enclose (d := .result e.step drawing) rfl h
  refine ⟨hresult.append h'.covered, ?_, ?_⟩
  · intro e' he
    rcases List.mem_cons.mp he with rfl | he
    · exact ⟨drawing, List.mem_cons_self⟩
    · obtain ⟨drawing', hmem⟩ := h'.result e' he
      exact ⟨drawing', List.mem_cons_of_mem _ hmem⟩
  · intro e' he v hvalue
    rcases List.mem_cons.mp he with rfl | he
    · refine (hv v hvalue).imp fun _ _ _ => Covered.settles_mono fun n hn => ?_
      exact Scene.occurs_append.mpr (Or.inl (Scene.occurs_of_parts hn))
    · -- a later value may refer to one that this result drew
      exact hresult.settled_append (h'.settled e' he v hvalue)

end DrawnResults

namespace Drawn

variable {s : Scene} {bodies : List NodeId} {seen seen' after : List Value}
  {ds ds' : List Diagram} {nodes nodes' : List Node}

theorem nil (hseen : ∀ u ∈ seen, s.Holds u) : Drawn s bodies seen seen [] [] :=
  ⟨.nil hseen, fun _ hn => absurd hn List.not_mem_nil⟩

theorem append (h : Drawn s bodies seen seen' ds nodes)
    (h' : Drawn s bodies seen' after ds' nodes') :
    Drawn s bodies seen after (ds ++ ds') (nodes ++ nodes') := by
  refine ⟨h.covered.append h'.covered, fun n hn => Scene.occurs_append.mpr ?_⟩
  exact (List.mem_append.mp hn).imp (h.occurs n) (h'.occurs n)

theorem enclose {d : Diagram} (hd : d.isNode = false)
    (h : Drawn s bodies seen after d.parts nodes) : Drawn s bodies seen after [d] nodes :=
  ⟨.enclose hd h.covered, fun n hn => Scene.occurs_of_parts (h.occurs n hn)⟩

theorem field (name : String) (h : Drawn s bodies seen after ds nodes) :
    Drawn s bodies seen after [.field name ds] nodes :=
  enclose (d := .field name ds) rfl h

theorem value (v : Value) (number : Option Nat) (h : Drawn s bodies seen after ds nodes) :
    Drawn s bodies seen after [.value v number ds] nodes :=
  enclose (d := .value v number ds) rfl h

/-- A leaf. -/
theorem leaf {d : Diagram} (hd : d.isNode = false) (hparts : d.parts = [])
    (hseen : ∀ u ∈ seen, s.Holds u) : Drawn s bodies seen seen [d] [] :=
  enclose hd (by rw [hparts]; exact nil hseen)

/-- A node with its fields and its results. -/
theorem node {n : Node} {fields results : List Diagram}
    (hfields : Drawn s bodies seen seen' fields n.children)
    (hresults : DrawnResults s bodies seen' after results (s.exitsOf n)) :
    Drawn s bodies seen after [.node n (s.entriesOf n) (s.exitVisits n) (fields ++ results)]
      [n] := by
  have hall := hfields.covered.append hresults.covered
  let d := Diagram.node n (s.entriesOf n) (s.exitVisits n) (fields ++ results)
  have hup : ∀ m, s.Occurs (fields ++ results) m → s.Occurs [d] m :=
    fun m hm => Scene.occurs_of_parts (d := d) hm
  have hmono : ∀ b, s.Settles bodies (fields ++ results) b → s.Settles bodies [d] b :=
    fun b => Covered.settles_mono hup
  have hself : s.Occurs [d] n := by
    refine ⟨d, List.mem_singleton_self d, fields ++ results, .self, fun e he => ?_⟩
    obtain ⟨drawing, hmem⟩ := hresults.result e he
    exact ⟨drawing, List.mem_append_right _ hmem⟩
  refine ⟨⟨hall.holds, ?_, ?_, ?_⟩, fun m hm => by rw [List.mem_singleton.mp hm]; exact hself⟩
  · intro m hm part hpart
    rcases Scene.occurs_node hm with rfl | hm
    · exact hup part (Scene.occurs_append.mpr (Or.inl (hfields.occurs part hpart)))
    · exact hup part (hall.fields m hm part hpart)
  · intro m hm e he v hv
    rcases Scene.occurs_node hm with rfl | hm
    · -- the node itself: its values are drawn after its fields
      exact (hfields.covered.settled_append (hresults.settled e he v hv)).imp fun _ _ _ => hmono _
    · exact (hall.exits m hm e he v hv).imp fun _ _ _ => hmono _
  · exact fun u hu => (hall.numbered u hu).imp_right (Value.Resolved.imp fun _ _ _ => hmono _)

end Drawn

end TraceTree

import TraceTree.Proofs.Diagram.Coverage
import TraceTree.Proofs.Diagram.Recursion
import TraceTree.Proofs.Trace.Origin

set_option autoImplicit false

/-! # Drawings are complete

A drawing keeps to `Covered`, by the recursion of drawing itself: there are fewer open bodies inside
the body of a function, and otherwise what is drawn gets smaller. A whole drawing begins with all
bodies open and with no value numbered, so a body that is settled in it does occur in it. Hence a
drawing shows all nodes that can be found from its root (`Scene.occurs_of_found`). -/

namespace TraceTree

section

variable {s : Scene} {bodies : List NodeId} {seen : List Value} {v : Value}

/-- A value that has a number is the one that was given it. -/
theorem Scene.Faithful.numbered (hs : s.Faithful) (hseen : ∀ u ∈ seen, s.Holds u) (hv : s.Holds v)
    {number : Nat} (h : seen.findIdx? (·.is v) = some number) : seen[number]? = some v := by
  obtain ⟨hlt, his, _⟩ := List.findIdx?_eq_some_iff_getElem.mp h
  have hid : seen[number].id = v.id := by simpa [Value.is] using his
  rw [List.getElem?_eq_getElem hlt, hs.values _ _ (hseen _ (List.getElem_mem hlt)) hv hid]

/-- A value is a reference if it has a number, and is drawn by its kind otherwise. -/
theorem covered_drawValue_of_kind (hs : s.Faithful) (hseen : ∀ u ∈ seen, s.Holds u) (hv : s.Holds v)
    (hkind : ∀ number seen', (∀ u ∈ seen', s.Holds u) →
      Covered s bodies seen' (drawContentOf s bodies v number seen').2
          [(drawContentOf s bodies v number seen').1] ∧
        v.Resolved seen' (s.Settles bodies [(drawContentOf s bodies v number seen').1])) :
    Covered s bodies seen (drawValue s bodies v seen).2 [(drawValue s bodies v seen).1] ∧
      v.Settled seen (s.Settles bodies [(drawValue s bodies v seen).1]) := by
  rw [drawValue_apply]
  split
  · cases hnumber : seen.findIdx? (·.is v) with
    | some number =>
      have hmem := List.mem_of_getElem? (hs.numbered hseen hv hnumber)
      exact ⟨.leaf rfl rfl hseen, Value.settled_of_mem hmem⟩
    | none =>
      have hseen' : ∀ u ∈ seen ++ [v], s.Holds u :=
        List.forall_mem_append.mpr ⟨hseen, List.forall_mem_singleton.mpr hv⟩
      obtain ⟨hcovered, hresolved⟩ := hkind (some seen.length) (seen ++ [v]) hseen'
      exact hcovered.conclude (Or.inr rfl) hresolved
  · obtain ⟨hcovered, hresolved⟩ := hkind none seen hseen
    exact hcovered.conclude (Or.inl rfl) hresolved

end

mutual

/-- **A node is drawn,** and so is what belongs to it. -/
theorem drawn_drawNode {s : Scene} (hs : s.Faithful) (bodies : List NodeId) (n : Node)
    {seen : List Value} (hseen : ∀ u ∈ seen, s.Holds u) :
    Drawn s bodies seen (drawNode s bodies n seen).2 [(drawNode s bodies n seen).1] [n] := by
  -- the fields, by induction on those that are left
  have hfields : ∀ (contents : List (String × Content)) (seen : List Value),
      contents ⊆ n.contents → (∀ u ∈ seen, s.Holds u) →
        Drawn s bodies seen (drawFields s bodies contents seen).2
          (drawFields s bodies contents seen).1 (contents.flatMap (·.2.nodes)) := by
    intro contents
    induction contents with
    | nil => exact fun seen _ hseen => .nil hseen
    | cons field more ih =>
      intro seen hsub hseen
      obtain ⟨name, content⟩ := field
      have hcontent : Drawn s bodies seen (drawContent s bodies content seen).2
          (drawContent s bodies content seen).1 content.nodes := by
        cases content with
        | leaf d =>
          rcases Node.leaf_of_contents (hsub List.mem_cons_self) with
            ⟨content, rfl⟩ | ⟨spelling, rfl⟩ | rfl <;> exact .leaf rfl rfl hseen
        | child child =>
          have hlt := Node.sizeOf_child_lt (hsub List.mem_cons_self)
          exact drawn_drawNode hs bodies child hseen
        | list nodes =>
          have hlt := Node.sizeOf_list_lt (hsub List.mem_cons_self)
          exact drawn_drawNodes hs bodies nodes hseen
      exact (hcontent.field name).append
        (ih _ (fun _ h => hsub (List.mem_cons_of_mem _ h)) hcontent.covered.holds)
  -- the values of the exits are drawn after the fields
  have hdrawn := hfields n.contents seen (List.Subset.refl _) hseen
  rw [n.flatMap_contents] at hdrawn
  have hresults := drawn_drawResults hs bodies (s.exitsOf n)
    (fun e he => Scene.exit_of_mem he) hdrawn.covered.holds
  rw [drawNode_apply]
  exact hdrawn.node hresults
termination_by (bodies.length, 1, sizeOf n)

/-- All nodes of a list are drawn. -/
theorem drawn_drawNodes {s : Scene} (hs : s.Faithful) (bodies : List NodeId) (nodes : List Node)
    {seen : List Value} (hseen : ∀ u ∈ seen, s.Holds u) :
    Drawn s bodies seen (drawNodes s bodies nodes seen).2 (drawNodes s bodies nodes seen).1
      nodes := by
  cases nodes with
  | nil =>
    rw [drawNodes]
    exact .nil hseen
  | cons n more =>
    have first := drawn_drawNode hs bodies n hseen
    have others := drawn_drawNodes hs bodies more first.covered.holds
    rw [drawNodes]
    exact first.append others
termination_by (bodies.length, 1, sizeOf nodes)

/-- All exits of a list are drawn. -/
theorem drawn_drawResults {s : Scene} (hs : s.Faithful) (bodies : List NodeId)
    (exits : List Event) (hexits : ∀ e ∈ exits, e ∈ s.trace.events.toList ∧ e.isEntry = false)
    {seen : List Value} (hseen : ∀ u ∈ seen, s.Holds u) :
    DrawnResults s bodies seen (drawResults s bodies exits seen).2
      (drawResults s bodies exits seen).1 exits := by
  match exits with
  | [] =>
    rw [drawResults]
    exact .nil hseen
  | .entry step node scope :: more => exact nomatch (hexits _ List.mem_cons_self).2
  | .exit step node scope none :: more =>
    have first : Covered s bodies seen seen [.missing] := .leaf rfl rfl hseen
    have others := drawn_drawResults hs bodies more
      (fun e he => hexits e (List.mem_cons_of_mem _ he)) hseen
    rw [drawResults]
    exact .cons (e := .exit step node scope none) first (fun _ hv => (by cases hv)) others
  | .exit step node scope (some v) :: more =>
    have hv : s.Holds v := ⟨_, (hexits _ List.mem_cons_self).1, v, rfl, v.mem_layers⟩
    obtain ⟨first, hsettled⟩ := covered_drawValue hs bodies v hv hseen
    have others := drawn_drawResults hs bodies more
      (fun e he => hexits e (List.mem_cons_of_mem _ he)) first.holds
    rw [drawResults]
    refine .cons (e := .exit step node scope (some v)) first (fun u hu => ?_) others
    rw [← Option.some.inj hu]
    exact hsettled
termination_by (bodies.length, 0, sizeOf exits)

/-- **A value is settled once it is drawn.** -/
theorem covered_drawValue {s : Scene} (hs : s.Faithful) (bodies : List NodeId) (v : Value)
    (hv : s.Holds v) {seen : List Value} (hseen : ∀ u ∈ seen, s.Holds u) :
    Covered s bodies seen (drawValue s bodies v seen).2 [(drawValue s bodies v seen).1] ∧
      v.Settled seen (s.Settles bodies [(drawValue s bodies v seen).1]) := by
  -- a word or a message is a leaf
  have leaf : ∀ {d : Diagram} {seen' : List Value}, d.isNode = false → d.parts = [] →
      (∀ u ∈ seen', s.Holds u) → Drawn s bodies seen' seen' [d] [] := .leaf
  refine covered_drawValue_of_kind hs hseen hv fun number seen' hseen' => ?_
  match v with
  | .integer id n =>
    exact ⟨((leaf rfl rfl hseen').field "Value" |>.value _ number).covered, trivial⟩
  | .boolean id b =>
    rw [drawContentOf]
    split
    · exact ⟨(leaf rfl rfl hseen').covered, trivial⟩
    · exact ⟨((leaf rfl rfl hseen').field "Value" |>.value _ number).covered, trivial⟩
  | .null id =>
    rw [drawContentOf]
    split
    · exact ⟨(leaf rfl rfl hseen').covered, trivial⟩
    · exact ⟨((leaf rfl rfl hseen').field "Value" |>.value _ number).covered, trivial⟩
  | .error id fault =>
    rw [drawContentOf]
    split
    · exact ⟨(leaf rfl rfl hseen').covered, trivial⟩
    · exact ⟨((leaf rfl rfl hseen').field "Message" |>.value _ number).covered, trivial⟩
  | .returned id inner =>
    have hinner : s.Holds inner := hv.layer (List.mem_cons_of_mem _ inner.mem_layers)
    obtain ⟨hcovered, hsettled⟩ := covered_drawValue hs bodies inner hinner hseen'
    refine ⟨.enclose rfl (.enclose rfl hcovered), hsettled.imp fun _ _ _ => ?_⟩
    refine Covered.settles_mono fun n hn => ?_
    refine Scene.occurs_of_parts (d := .value _ number [.field _ _]) ?_
    exact Scene.occurs_of_parts (d := .field "ReturnValue" [_]) hn
  | .function id closure =>
    by_cases _open : closure.body.id ∈ bodies
    · -- the body is drawn with one body fewer open, and occurs then
      have names := drawn_drawNodes hs (bodies.filter (· != closure.body.id)) closure.parameters
        hseen'
      have code := drawn_drawNode hs (bodies.filter (· != closure.body.id)) closure.body
        names.covered.holds
      have hdrawn := ((names.field "Parameters").append (code.field "Body")).value
        (.function id closure) number
      have hbody := hdrawn.occurs closure.body (List.mem_append_right _ List.mem_cons_self)
      rw [drawContentOf, if_pos _open]
      exact ⟨hdrawn.covered.reopen hs hv hbody, Or.inl hbody⟩
    · -- a cycle: the body is not open, so it is settled already
      rw [drawContentOf, if_neg _open]
      exact ⟨(leaf rfl rfl hseen').covered, Or.inr _open⟩
termination_by (bodies.length, 0, sizeOf v)
decreasing_by
  all_goals simp_wf
  all_goals first
    | exact Prod.Lex.left _ _ (length_filter_ne_lt _open)
    | (apply Prod.Lex.right; apply Prod.Lex.right; omega)

end

/-! ## Whole drawings -/

theorem Value.mem_bodies {v : Value} {id : ValueId} {closure : Closure}
    (h : .function id closure ∈ v.layers) : closure.body.id ∈ v.bodies := by
  induction v with
  | returned id' inner ih =>
    rcases List.mem_cons.mp h with h | h
    · cases h
    · exact ih h
  | function id' closure' =>
    obtain ⟨_, rfl⟩ := Value.function.inj (List.mem_singleton.mp h)
    exact List.mem_singleton_self _
  | _ => cases List.mem_singleton.mp h

namespace Scene

variable {s : Scene}

/-- At first the body of every function is open. -/
theorem Holds.mem_bodies {id : ValueId} {closure : Closure} (h : s.Holds (.function id closure)) :
    closure.body.id ∈ s.bodies := by
  obtain ⟨e, he, v, hv, hmem⟩ := h
  refine List.mem_eraseDups.mpr (List.mem_flatMap.mpr ⟨e, he, ?_⟩)
  rw [hv]
  exact Value.mem_bodies hmem

/-- **A drawing shows all nodes that can be found from its root,** each with all its entries and
exits somewhere. -/
theorem occurs_of_found (hs : s.Faithful) {root n : Node}
    (h : Found s.trace.events.toList root n) : s.Occurs [(drawNode s s.bodies root []).1] n := by
  have hseen : ∀ u ∈ ([] : List Value), s.Holds u := fun _ hu => absurd hu List.not_mem_nil
  have hdrawn := drawn_drawNode hs s.bodies root hseen
  induction h with
  | root => exact hdrawn.occurs root (List.mem_singleton_self root)
  | field _ mem ih => exact hdrawn.covered.fields _ ih _ mem
  | @body callee step scope id closure _ left ih =>
    have hexit : .exit step callee scope (some (.function id closure)) ∈ s.exitsOf callee :=
      List.mem_filter.mpr ⟨left, by simp [Event.isEntry, Event.node, Node.is]⟩
    rcases hdrawn.covered.exits callee ih _ hexit _ rfl with hseen | hoccurs | hclosed
    · exact absurd hseen List.not_mem_nil
    · exact hoccurs
    · exact absurd (Holds.mem_bodies (Scene.holds_of_exit hexit rfl)) hclosed

end Scene

end TraceTree
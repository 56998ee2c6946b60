import TraceTree.Proofs.Diagram.Appearance
import TraceTree.Proofs.Diagram.Completeness
import TraceTree.Proofs.Diagram.Recursion
import TraceTree.Proofs.Workspace.Identity

set_option autoImplicit false

/-! # Shared values are drawn once

Where values are shared, one that is used in several places gets its number where it appears for the
first time, and appears as a reference to this number from then on. It is drawn in full at its first
appearance, unless it is a function and a function with the same body is being drawn around it: then
it is marked as a cycle there, and it is not drawn in full at any place. -/

namespace TraceTree

namespace Scene

variable {s : Scene} {bodies : List NodeId} {around seen : List Value} {v : Value}

/-- The bodies that are open are those of functions that are not being drawn around. -/
def OpenIn (s : Scene) (bodies : List NodeId) (around : List Value) : Prop :=
  ∀ id closure, s.Holds (.function id closure) →
    (closure.body.id ∈ bodies ↔
      ¬ ∃ id' closure', .function id' closure' ∈ around ∧ closure'.body.id = closure.body.id)

theorem OpenIn.function (h : s.OpenIn bodies around) (id : ValueId) (closure : Closure) :
    s.OpenIn (bodies.filter (· != closure.body.id)) (.function id closure :: around) := by
  intro id' closure' hheld
  rw [List.mem_filter, h id' closure' hheld]
  constructor
  · rintro ⟨hnot, hne⟩ ⟨id₂, closure₂, hmem, heq⟩
    rcases List.mem_cons.mp hmem with hself | hmem
    · obtain ⟨_, rfl⟩ := Value.function.inj hself
      simp [heq] at hne
    · exact hnot ⟨id₂, closure₂, hmem, heq⟩
  · intro hnot
    refine ⟨fun ⟨id₂, closure₂, hmem, heq⟩ => hnot ⟨id₂, closure₂, List.mem_cons_of_mem _ hmem, heq⟩,
      ?_⟩
    simp only [bne_iff_ne, ne_eq]
    exact fun heq => hnot ⟨id, closure, List.mem_cons_self, heq.symm⟩

/-- A value that is no function changes nothing. -/
theorem OpenIn.cons (h : s.OpenIn bodies around) (hv : ∀ id closure, v ≠ .function id closure) :
    s.OpenIn bodies (v :: around) := by
  intro id closure hheld
  rw [h id closure hheld]
  refine not_congr ⟨?_, ?_⟩
  · exact fun ⟨id', closure', hmem, heq⟩ => ⟨id', closure', List.mem_cons_of_mem _ hmem, heq⟩
  · rintro ⟨id', closure', hmem, heq⟩
    rcases List.mem_cons.mp hmem with hself | hmem
    · exact absurd hself.symm (hv id' closure')
    · exact ⟨id', closure', hmem, heq⟩

/-- A value that has no number was not numbered. -/
theorem not_mem_of_findIdx?_eq_none (h : seen.findIdx? (·.is v) = none) : v ∉ seen := by
  intro hmem
  have his := List.findIdx?_eq_none_iff.mp h v hmem
  simp [Value.is] at his

/-- What the drawing of a value by its kind does: the value appears first, and then what is in it. -/
structure DrawnByKind (s : Scene) (depth : Nat) (around : List Value) (v : Value)
    (number : Option Nat) (seen after : List Value) (d : Diagram) : Prop where
  shown : d.shown? = some v
  draws : s.Draws number ⟨depth, around, d⟩ v
  inner : ∃ as, d.appearances depth around = ⟨depth, around, d⟩ :: as ∧ s.Accounts seen as after

/-- A value is a reference if it has a number, and is drawn by its kind otherwise. -/
theorem accounts_drawValue_of_kind (hs : s.Faithful) (hseen : ∀ u ∈ seen, s.Holds u)
    (hv : s.Holds v) {depth : Nat}
    (hkind : ∀ number seen', (∀ u ∈ seen', s.Holds u) →
      s.DrawnByKind depth around v number seen' (drawContentOf s bodies v number seen').2
        (drawContentOf s bodies v number seen').1) :
    s.Accounts seen ((drawValue s bodies v seen).1.appearances depth around)
        (drawValue s bodies v seen).2 ∧
      (drawValue s bodies v seen).1.shown? = some v := by
  rw [drawValue_apply]
  split
  · next hshared =>
    cases hnumber : seen.findIdx? (·.is v) with
    | some number =>
      have hat := hs.numbered hseen hv hnumber
      exact ⟨.again hat rfl .nil, rfl⟩
    | none =>
      have hnew := not_mem_of_findIdx?_eq_none hnumber
      have hseen' : ∀ u ∈ seen ++ [v], s.Holds u :=
        List.forall_mem_append.mpr ⟨hseen, List.forall_mem_singleton.mpr hv⟩
      obtain ⟨hshown, hdraws, as, happ, hinner⟩ := hkind (some seen.length) (seen ++ [v]) hseen'
      rw [happ]
      exact ⟨.first hshown hv hnew hdraws hinner, hshown⟩
  · next hshared =>
    obtain ⟨hshown, _, as, happ, hinner⟩ := hkind none seen hseen
    rw [happ]
    exact ⟨.unshared hshown (Bool.eq_false_iff.mpr hshared) hinner, hshown⟩

end Scene

/-- No value appears in a word. -/
theorem Node.appearances_leaf {n : Node} {name : String} {d : Diagram}
    (h : (name, .leaf d) ∈ n.contents) (depth : Nat) (around : List Value) :
    d.appearances depth around = [] := by
  rcases Node.leaf_of_contents h with ⟨content, rfl⟩ | ⟨spelling, rfl⟩ | rfl <;> rfl

mutual

/-- **The appearances in the drawing of a node are accounted for.** -/
theorem accounts_drawNode {s : Scene} (hs : s.Faithful) (hleaves : s.verbosity.collapsesLeaves = true)
    (bodies : List NodeId) (n : Node) {around seen : List Value} (hopen : s.OpenIn bodies around)
    (hseen : ∀ u ∈ seen, s.Holds u) (depth : Nat) :
    s.Accounts seen ((drawNode s bodies n seen).1.appearances depth around)
        (drawNode s bodies n seen).2 ∧
      s.DrawsNode n (drawNode s bodies n seen).1 := by
  -- the fields, by induction on those that are left
  have hfields : ∀ (contents : List (String × Content)) (seen : List Value),
      contents ⊆ n.contents → (∀ u ∈ seen, s.Holds u) →
        s.Accounts seen (Diagram.appearancesAll (depth + 1) around (drawFields s bodies contents seen).1)
          (drawFields s bodies contents seen).2 := by
    intro contents
    induction contents with
    | nil => exact fun seen _ _ => .nil
    | cons field more ih =>
      intro seen hsub hseen
      obtain ⟨name, content⟩ := field
      have hcontent : s.Accounts seen
          (Diagram.appearancesAll (depth + 2) around (drawContent s bodies content seen).1)
          (drawContent s bodies content seen).2 := by
        cases content with
        | leaf d =>
          show s.Accounts seen (Diagram.appearancesAll (depth + 2) around [d]) seen
          rw [Diagram.appearancesAll_singleton, Node.appearances_leaf (hsub List.mem_cons_self)]
          exact .nil
        | child child =>
          have hlt := Node.sizeOf_child_lt (hsub List.mem_cons_self)
          have hchild := (accounts_drawNode hs hleaves bodies child hopen hseen (depth + 2)).1
          rw [← Diagram.appearancesAll_singleton] at hchild
          exact hchild
        | list nodes =>
          have hlt := Node.sizeOf_list_lt (hsub List.mem_cons_self)
          exact (accounts_drawNodes hs hleaves bodies nodes hopen hseen (depth + 2)).1
      exact hcontent.append (ih _ (fun _ h => hsub (List.mem_cons_of_mem _ h)) (hcontent.holds hseen))
  have hdrawn := hfields n.contents seen (List.Subset.refl _) hseen
  have hresults := accounts_drawResults hs hleaves bodies (s.exitsOf n)
    (fun e he => Scene.exit_of_mem he) hopen (hdrawn.holds hseen) (depth + 1)
  rw [drawNode_apply]
  refine ⟨?_, _, rfl⟩
  rw [Diagram.appearances, Diagram.appearancesAll_append]
  exact hdrawn.append hresults
termination_by (bodies.length, 1, sizeOf n)

/-- The nodes of a list are drawn one after the other. -/
theorem accounts_drawNodes {s : Scene} (hs : s.Faithful)
    (hleaves : s.verbosity.collapsesLeaves = true) (bodies : List NodeId) (nodes : List Node)
    {around seen : List Value} (hopen : s.OpenIn bodies around) (hseen : ∀ u ∈ seen, s.Holds u)
    (depth : Nat) :
    s.Accounts seen (Diagram.appearancesAll depth around (drawNodes s bodies nodes seen).1)
        (drawNodes s bodies nodes seen).2 ∧
      List.Forall₂ s.DrawsNode nodes (drawNodes s bodies nodes seen).1 := by
  cases nodes with
  | nil =>
    rw [drawNodes]
    exact ⟨.nil, .nil⟩
  | cons n more =>
    obtain ⟨first, hdraws⟩ := accounts_drawNode hs hleaves bodies n hopen hseen depth
    obtain ⟨others, hall⟩ := accounts_drawNodes hs hleaves bodies more hopen (first.holds hseen) depth
    rw [drawNodes]
    exact ⟨first.append others, .cons hdraws hall⟩
termination_by (bodies.length, 1, sizeOf nodes)

/-- The results of exits are drawn one after the other. -/
theorem accounts_drawResults {s : Scene} (hs : s.Faithful)
    (hleaves : s.verbosity.collapsesLeaves = true) (bodies : List NodeId) (exits : List Event)
    (hexits : ∀ e ∈ exits, e ∈ s.trace.events.toList ∧ e.isEntry = false)
    {around seen : List Value} (hopen : s.OpenIn bodies around) (hseen : ∀ u ∈ seen, s.Holds u)
    (depth : Nat) :
    s.Accounts seen (Diagram.appearancesAll depth around (drawResults s bodies exits seen).1)
      (drawResults s bodies exits seen).2 := by
  match exits with
  | [] =>
    rw [drawResults]
    exact .nil
  | .entry step node scope :: more => exact nomatch (hexits _ List.mem_cons_self).2
  | .exit step node scope none :: more =>
    rw [drawResults]
    exact accounts_drawResults hs hleaves bodies more
      (fun e he => hexits e (List.mem_cons_of_mem _ he)) hopen hseen depth
  | .exit step node scope (some v) :: more =>
    have hv : s.Holds v := ⟨_, (hexits _ List.mem_cons_self).1, v, rfl, v.mem_layers⟩
    have first := (accounts_drawValue hs hleaves bodies v hv hopen hseen depth).1
    have others := accounts_drawResults hs hleaves bodies more
      (fun e he => hexits e (List.mem_cons_of_mem _ he)) hopen (first.holds hseen) depth
    rw [drawResults]
    exact first.append others
termination_by (bodies.length, 0, sizeOf exits)

/-- **A value appears where it is drawn,** and then what is drawn of it. -/
theorem accounts_drawValue {s : Scene} (hs : s.Faithful)
    (hleaves : s.verbosity.collapsesLeaves = true) (bodies : List NodeId) (v : Value)
    (hv : s.Holds v) {around seen : List Value} (hopen : s.OpenIn bodies around)
    (hseen : ∀ u ∈ seen, s.Holds u) (depth : Nat) :
    s.Accounts seen ((drawValue s bodies v seen).1.appearances depth around)
        (drawValue s bodies v seen).2 ∧
      (drawValue s bodies v seen).1.shown? = some v := by
  refine Scene.accounts_drawValue_of_kind hs hseen hv fun number seen' hseen' => ?_
  -- a value that is no function is never being drawn around itself
  have houtside : ∀ {d : Diagram}, (∀ id closure, v ≠ .function id closure) → s.Full number d v →
      s.Draws number ⟨depth, around, d⟩ v := fun hne hfull =>
    Or.inl ⟨fun ⟨_, _, _, _, heq, _⟩ => hne _ _ heq, hfull⟩
  match v with
  | .integer id n => exact ⟨rfl, houtside (fun _ _ => nofun) rfl, _, rfl, .nil⟩
  | .boolean id b =>
    rw [drawContentOf, if_pos hleaves]
    exact ⟨rfl, houtside (fun _ _ => nofun) rfl, _, rfl, .nil⟩
  | .null id =>
    rw [drawContentOf, if_pos hleaves]
    exact ⟨rfl, houtside (fun _ _ => nofun) rfl, _, rfl, .nil⟩
  | .error id fault =>
    rw [drawContentOf, if_pos hleaves]
    exact ⟨rfl, houtside (fun _ _ => nofun) rfl, _, rfl, .nil⟩
  | .returned id inner =>
    have hinner : s.Holds inner := hv.layer (List.mem_cons_of_mem _ inner.mem_layers)
    obtain ⟨hdrawn, hshown⟩ := accounts_drawValue hs hleaves bodies inner hinner
      (hopen.cons (v := .returned id inner) fun _ _ => nofun) hseen' (depth + 2)
    refine ⟨rfl, houtside (fun _ _ => nofun) ⟨_, hshown, rfl⟩, _, rfl, ?_⟩
    rw [← Diagram.appearancesAll_singleton] at hdrawn
    rw [Diagram.appearancesAll_singleton]
    exact hdrawn
  | .function id closure =>
    by_cases _open : closure.body.id ∈ bodies
    · have hopen' := hopen.function id closure
      obtain ⟨names, hnames⟩ := accounts_drawNodes hs hleaves
        (bodies.filter (· != closure.body.id)) closure.parameters hopen' hseen' (depth + 2)
      obtain ⟨code, hcode⟩ := accounts_drawNode hs hleaves
        (bodies.filter (· != closure.body.id)) closure.body hopen' (names.holds hseen') (depth + 2)
      rw [drawContentOf, if_pos _open]
      refine ⟨rfl, Or.inl ⟨?_, _, _, hnames, hcode, rfl⟩, _, rfl, ?_⟩
      · rintro ⟨_, _, id', closure', heq, hmem, hbody⟩
        obtain ⟨_, rfl⟩ := Value.function.inj heq
        exact (hopen id closure hv).mp _open ⟨id', closure', hmem, hbody⟩
      · rw [← Diagram.appearancesAll_singleton] at code
        exact names.append (code.append .nil)
    · rw [drawContentOf, if_neg _open]
      obtain ⟨id', closure', hmem, hbody⟩ :=
        not_not.mp fun hnot => _open ((hopen id closure hv).mpr hnot)
      exact ⟨rfl, Or.inr ⟨⟨id, closure, id', closure', rfl, hmem, hbody⟩, rfl⟩, _, rfl, .nil⟩
termination_by (bodies.length, 0, sizeOf v)
decreasing_by
  all_goals simp_wf
  all_goals first
    | exact Prod.Lex.left _ _ (length_filter_ne_lt _open)
    | (apply Prod.Lex.right; apply Prod.Lex.right; omega)

end

/-! ## Whole drawings -/

namespace Scene

variable {s : Scene}

/-- At first the bodies of all functions are open. -/
theorem openIn_bodies (s : Scene) : s.OpenIn s.bodies [] := by
  intro id closure hheld
  refine ⟨fun _ ⟨_, _, hmem, _⟩ => absurd hmem List.not_mem_nil, fun _ => hheld.mem_bodies⟩

/-- **A shared value is drawn where it appears first,** if it appears in a drawing. -/
theorem shares_diagram (hs : s.Faithful) (hverbosity : s.verbosity.sharesValues = true) {d : Diagram}
    (hd : s.diagram? = some d) :
    ∃ numbers, ∀ v, s.isShared v = true →
      (∃ a ∈ d.appearances 0 [], a.drawing.shown? = some v) →
        s.Shares numbers (d.appearances 0 []) v := by
  obtain ⟨root, _, rfl⟩ := Option.map_eq_some_iff.mp hd
  have hleaves : s.verbosity.collapsesLeaves = true :=
    decide_eq_true (Nat.le_of_succ_le (of_decide_eq_true hverbosity))
  have haccounts := (accounts_drawNode hs hleaves s.bodies root s.openIn_bodies
    (fun _ hu => absurd hu List.not_mem_nil) 0).1
  exact ⟨_, fun v hv => haccounts.shares List.nodup_nil hv List.not_mem_nil⟩

end Scene

/-- **What the tree of an evaluation shows of shared values.** Take any tree and any scopes whose nodes
and values are told apart by their identities, evaluate the tree with any limit, and draw the trace,
or the trace up to a step, with sharing. A value that is used in several places has one number. It is
drawn in full where it appears first, unless it is a function and its body is being drawn around it;
then it is marked as a cycle there. All its later appearances are references to the number. Appearances
are written in their order. -/
theorem Machine.shares_eval (heap : Heap) (limit : Nat) (root : Node) (scope : ScopeId)
    (hs : scope < heap.scopes.size) {arena : NodeId → Option Node} {made : List Value}
    (hheap : heap.Registered arena made) (hroot : root.Known arena) :
    let whole := ((Machine.new heap limit true).eval root scope).2.trace
    ∀ trace, trace = whole ∨ (∃ step, trace = whole.upTo step) →
      ∀ (later : Heap) (verbosity : Verbosity), verbosity.sharesValues = true →
        ∀ d, (⟨later, trace, verbosity⟩ : Scene).diagram? = some d →
          (∀ m, ((d.appearances 0 []).flatMap (Diagram.firstLine m)).Sublist (d.lines m 0)) ∧
          ∃ numbers, ∀ v, (⟨later, trace, verbosity⟩ : Scene).isShared v = true →
            (∃ a ∈ d.appearances 0 [], a.drawing.shown? = some v) →
              (⟨later, trace, verbosity⟩ : Scene).Shares numbers (d.appearances 0 []) v := by
  intro whole trace htrace later verbosity hverbosity d hd
  have hfaithful := Machine.faithful_eval hs hheap hroot htrace later verbosity
  exact ⟨fun m => Diagram.firstLines_sublist_lines m 0 [] d,
    Scene.shares_diagram hfaithful hverbosity hd⟩

/-! ### A value that is never drawn in full -/

/-- The program `let w = fn(k) { fn() { k } }; w(w(w(1)))()()`. -/
def nestedWraps : Node :=
  .program 20 [.letStatement 9 (.identifier 0 "w") (.functionLiteral 8 [.identifier 1 "k"] (.block 7
      [.expressionStatement 6 (.functionLiteral 5 [] (.block 4
        [.expressionStatement 3 (.identifier 2 "k")]))])),
    .expressionStatement 19 (.call 18 (.call 17 (.call 16 (.identifier 10 "w")
      [.call 15 (.identifier 11 "w") [.call 14 (.identifier 12 "w") [.integer 13 1]]]) []) [])]

/-- Its evaluation. -/
def nestedWrapsRun : Except Overflow (Option Value) × Machine :=
  (Machine.new Workspace.empty.heap 20 true).eval nestedWraps Workspace.empty.globals

/-- The trace of its evaluation. -/
def nestedWrapsTrace : Trace :=
  ((Machine.new Workspace.empty.heap 20 true).eval nestedWraps Workspace.empty.globals).2.trace

/-- The scene of its evaluation, with sharing. -/
def nestedWrapsScene : Scene := ⟨nestedWrapsRun.2.heap, nestedWrapsTrace, ⟨2⟩⟩

/-- The drawing of its evaluation. -/
def nestedWrapsDiagram : Diagram :=
  (drawNode nestedWrapsScene nestedWrapsScene.bodies nestedWraps []).1

/-- The function that `w(1)` makes. -/
def innermostWrap : Value :=
  .function (.made 2) ⟨[], .block 4 [.expressionStatement 3 (.identifier 2 "k")], 1⟩

/-- The identity of a value drawn in full. -/
def Diagram.fullId? : Diagram → Option ValueId
  | value v _ _ => some v.id
  | _ => none

theorem parse_nestedWraps :
    (Workspace.empty.parse "let w = fn(k) { fn() { k } }; w(w(w(1)))()()" .program).map (·.root) =
      .ok nestedWraps := by cbv

theorem diagram?_nestedWrapsScene : nestedWrapsScene.diagram? = some nestedWrapsDiagram := by
  have hroot : nestedWrapsScene.trace.root? = some nestedWraps := by cbv
  rw [Scene.diagram?, hroot]
  rfl

set_option maxRecDepth 100000 in
/-- The function appears, and is used in several places. -/
theorem innermostWrap_appears : nestedWrapsScene.isShared innermostWrap = true ∧
    ∃ a ∈ nestedWrapsDiagram.appearances 0 [], a.drawing.shown? = some innermostWrap := by
  have happears : (nestedWrapsDiagram.appearances 0 [])[2]?.bind (·.drawing.shown?) =
      some innermostWrap := by cbv
  obtain ⟨a, ha, hshown⟩ := Option.bind_eq_some_iff.mp happears
  exact ⟨by cbv, a, List.mem_of_getElem? ha, hshown⟩

set_option maxRecDepth 100000 in
/-- The function appears nowhere in full. -/
theorem innermostWrap_not_full (number : Option Nat) :
    ∀ a ∈ nestedWrapsDiagram.appearances 0 [],
      ¬ nestedWrapsScene.Full number a.drawing innermostWrap := by
  have hothers : ((nestedWrapsDiagram.appearances 0 []).all fun a =>
      a.drawing.fullId? != some (.made 2)) = true := by cbv
  rintro a ha ⟨names, code, _, _, heq⟩
  have hne := List.all_eq_true.mp hothers a ha
  rw [heq] at hne
  cases hne

/-- The tree of the program marks its value as a cycle where it appears first, and refers to it from
then on. -/
theorem Machine.shares_eval_nestedWraps :
    Workspace.empty.globals < Workspace.empty.heap.scopes.size ∧
      (∃ nodes : List Node, Workspace.empty.heap.Registered (fun id => nodes[id]?) [] ∧
        nestedWraps.Known fun id => nodes[id]?) ∧
      nestedWrapsScene.verbosity.sharesValues = true ∧
      nestedWrapsScene.diagram? = some nestedWrapsDiagram ∧
      nestedWrapsScene.isShared innermostWrap = true ∧
      ∃ before a later k, nestedWrapsDiagram.appearances 0 [] = before ++ a :: later ∧
        a.drawing = .cycle innermostWrap (some k) ∧ ∀ b ∈ later,
          b.drawing.shown? = some innermostWrap → b.drawing = .reference innermostWrap k := by
  have hread := parse_nestedWraps
  obtain ⟨parsed, hparsed, hroot⟩ : ∃ parsed, Workspace.empty.parse
      "let w = fn(k) { fn() { k } }; w(w(w(1)))()()" .program = .ok parsed ∧
        parsed.root = nestedWraps := by
    cases hparse : Workspace.empty.parse "let w = fn(k) { fn() { k } }; w(w(w(1)))()()" .program with
    | error e => rw [hparse] at hread; cases hread
    | ok parsed => exact ⟨parsed, rfl, by rw [hparse] at hread; exact Except.ok.inj hread⟩
  obtain ⟨nodes, _, _, hknown, hheap⟩ := Workspace.identified_empty.parse hparsed
  rw [hroot] at hknown
  have hs := Workspace.identified_empty.globals_lt
  obtain ⟨hshared, happears⟩ := innermostWrap_appears
  obtain ⟨_, numbers, hshares⟩ := Machine.shares_eval Workspace.empty.heap 20 nestedWraps
    Workspace.empty.globals hs hheap hknown nestedWrapsTrace (Or.inl rfl) nestedWrapsRun.2.heap ⟨2⟩
    rfl nestedWrapsDiagram diagram?_nestedWrapsScene
  obtain ⟨before, a, later, k, has, _, _, _, ⟨_, hfull⟩ | ⟨_, hcycle⟩, hlater⟩ :=
    hshares innermostWrap hshared happears
  · refine absurd hfull (innermostWrap_not_full _ a ?_)
    rw [has]
    exact List.mem_append_right _ List.mem_cons_self
  · exact ⟨hs, ⟨nodes, hheap, hknown⟩, rfl, diagram?_nestedWrapsScene, hshared, before, a, later, k,
      has, hcycle, hlater⟩

/-- A value that is used in several places is not always drawn in full: here it is the value of the
program. -/
theorem nestedWraps_not_full :
    (Workspace.empty.parse "let w = fn(k) { fn() { k } }; w(w(w(1)))()()" .program).map (·.root) =
        .ok nestedWraps ∧
      nestedWrapsRun.1 = .ok (some innermostWrap) ∧
      nestedWrapsScene.diagram? = some nestedWrapsDiagram ∧
      nestedWrapsScene.isShared innermostWrap = true ∧
      (∃ a ∈ nestedWrapsDiagram.appearances 0 [], a.drawing.shown? = some innermostWrap) ∧
      ¬ ∃ a ∈ nestedWrapsDiagram.appearances 0 [], ∃ number,
        nestedWrapsScene.Full number a.drawing innermostWrap := by
  refine ⟨parse_nestedWraps, by cbv, diagram?_nestedWrapsScene, innermostWrap_appears.1,
    innermostWrap_appears.2, ?_⟩
  rintro ⟨a, ha, number, hfull⟩
  exact innermostWrap_not_full number a ha hfull

end TraceTree

import Mathlib.Order.RelClasses
import TraceTree.Proofs.Diagram.Appearance
import TraceTree.Proofs.Diagram.Completeness

set_option autoImplicit false

/-! # Expansion comes to an end

Drawing is told which bodies are open, and each body that is expanded is one fewer further down.
`Scene.drawOnce` is the same recursion without this bound: it says how a node or a value is drawn
when everything it takes is drawn by `draw`, and all it knows from above is which bodies are being
expanded. What a job takes (`Scene.Takes`) never leads back to it, since on the way down a body is
expanded once at most. So just one `draw` does as `drawOnce` says, and it is the one that is told
the open bodies.

In what it draws, the bodies expanded around any place are different from one another. -/

namespace TraceTree

/-! ## Lists of drawings -/

namespace Draw

variable {α β : Type} {f g : α → Draw β} {l : List α}

theorem mapM_congr (h : ∀ a ∈ l, f a = g a) : l.mapM f = l.mapM g := by
  induction l with
  | nil => rfl
  | cons a l ih =>
    rw [List.mapM_cons, List.mapM_cons, h a List.mem_cons_self,
      ih fun b hb => h b (List.mem_cons_of_mem _ hb)]

theorem exists_of_mem_mapM {seen : List Value} {b : β} (h : b ∈ (l.mapM f seen).1) :
    ∃ a ∈ l, ∃ seen', b = (f a seen').1 := by
  induction l generalizing seen with
  | nil => exact absurd h List.not_mem_nil
  | cons a l ih =>
    rw [List.mapM_cons] at h
    rcases List.mem_cons.mp h with rfl | h
    · exact ⟨a, List.mem_cons_self, seen, rfl⟩
    · obtain ⟨a', ha', seen', hb⟩ := ih h
      exact ⟨a', List.mem_cons_of_mem _ ha', seen', hb⟩

end Draw

/-! ## What is drawn for what -/

/-- A node or a value to be drawn inside the bodies that are being expanded, the innermost first. -/
inductive Job where
  | node (expanding : List NodeId) (n : Node)
  | value (expanding : List NodeId) (v : Value)

/-- The bodies that are being expanded around a job. -/
def Job.expanding : Job → List NodeId
  | node expanding _ | value expanding _ => expanding

/-- Draw what stands in a field, where `draw` draws nodes. -/
def Content.drawWith (draw : Node → Draw Diagram) : Content → Draw (List Diagram)
  | .leaf d => pure [d]
  | .child n => do
    let d ← draw n
    pure [d]
  | .list nodes => nodes.mapM draw

theorem Content.drawWith_congr {draw draw' : Node → Draw Diagram} {content : Content}
    (h : ∀ n ∈ content.nodes, draw n = draw' n) : content.drawWith draw = content.drawWith draw' := by
  cases content with
  | leaf d => rfl
  | child n => rw [drawWith, drawWith, h n (List.mem_singleton_self n)]
  | list nodes => exact Draw.mapM_congr h

/-- Draw a field, where `draw` draws nodes. -/
def drawFieldWith (draw : Node → Draw Diagram) (field : String × Content) : Draw Diagram := do
  let parts ← field.2.drawWith draw
  pure (.field field.1 parts)

/-- Draw what an exit leaves, where `draw` draws values. -/
def Event.drawWith (draw : Value → Draw Diagram) (e : Event) : Draw Diagram :=
  match e.value? with
  | none => pure (.result e.step .missing)
  | some v => do
    let drawing ← draw v
    pure (.result e.step drawing)

namespace Scene

/-- Draw a value by its kind, where `draw` draws what that takes. A function is a cycle if its body
is being expanded. -/
def drawKind (s : Scene) (draw : Job → Draw Diagram) (expanding : List NodeId) (v : Value)
    (number : Option Nat) : Draw Diagram :=
  match v with
  | .integer _ n => pure (.value v number [.field "Value" [.text (toString n.toInt)]])
  | .boolean _ b =>
    if s.verbosity.collapsesLeaves then pure (.constant v)
    else pure (.value v number [.field "Value" [.text (if b then "true" else "false")]])
  | .null _ =>
    if s.verbosity.collapsesLeaves then pure (.constant v)
    else pure (.value v number [.field "Value" [.text "null"]])
  | .returned _ inner => do
    let drawing ← draw (.value expanding inner)
    pure (.value v number [.field "ReturnValue" [drawing]])
  | .error _ fault =>
    if s.verbosity.collapsesLeaves then pure (.fault v number fault.message)
    else pure (.value v number [.field "Message" [.message fault.message]])
  | .function _ closure =>
    if closure.body.id ∈ expanding then pure (.cycle v number)
    else do
      let names ← closure.parameters.mapM (fun n => draw (.node (closure.body.id :: expanding) n))
      let code ← draw (.node (closure.body.id :: expanding) closure.body)
      pure (.value v number [.field "Parameters" names, .field "Body" [code]])

/-- Draw a node or a value, where `draw` draws what that takes: the one recursion of drawing, with
nothing to bound it. -/
def drawOnce (s : Scene) (draw : Job → Draw Diagram) : Job → Draw Diagram
  | .node expanding n => do
    let fields ← n.contents.mapM (drawFieldWith fun child => draw (.node expanding child))
    let results ← (s.exitsOf n).mapM (Event.drawWith fun v => draw (.value expanding v))
    pure (.node n (s.entriesOf n) (s.exitVisits n) (fields ++ results))
  | .value expanding v => fun seen =>
    if s.isShared v then
      match seen.findIdx? (·.is v) with
      | some number => (.reference v number, seen)
      | none => s.drawKind draw expanding v (some seen.length) (seen ++ [v])
    else s.drawKind draw expanding v none seen

theorem drawOnce_value_apply (s : Scene) (draw : Job → Draw Diagram) (expanding : List NodeId)
    (v : Value) (seen : List Value) :
    s.drawOnce draw (.value expanding v) seen =
      if s.isShared v then
        match seen.findIdx? (·.is v) with
        | some number => (.reference v number, seen)
        | none => s.drawKind draw expanding v (some seen.length) (seen ++ [v])
      else s.drawKind draw expanding v none seen := rfl

/-- What the drawing of a node or a value takes: the fields of the node and the values that its exits
leave; the value that a wrapper holds; and the parameters and the body of a function, unless the body
is being expanded. -/
inductive Takes (s : Scene) : Job → Job → Prop where
  | field {expanding : List NodeId} {n child : Node} (mem : child ∈ n.children) :
      Takes s (.node expanding n) (.node expanding child)
  | exit {expanding : List NodeId} {n : Node} {e : Event} {v : Value} (mem : e ∈ s.exitsOf n)
      (left : e.value? = some v) : Takes s (.node expanding n) (.value expanding v)
  | unwrap {expanding : List NodeId} {id : ValueId} {inner : Value} :
      Takes s (.value expanding (.returned id inner)) (.value expanding inner)
  | expand {expanding : List NodeId} {id : ValueId} {closure : Closure} {n : Node}
      (new : closure.body.id ∉ expanding) (mem : n ∈ closure.parameters ++ [closure.body]) :
      Takes s (.value expanding (.function id closure)) (.node (closure.body.id :: expanding) n)

variable {s : Scene}

/-- **Only what a job takes matters for its drawing.** -/
theorem drawOnce_congr {draw draw' : Job → Draw Diagram} {job : Job}
    (h : ∀ inner, s.Takes job inner → draw inner = draw' inner) :
    s.drawOnce draw job = s.drawOnce draw' job := by
  cases job with
  | node expanding n =>
    have hfields : n.contents.mapM (drawFieldWith fun child => draw (.node expanding child)) =
        n.contents.mapM (drawFieldWith fun child => draw' (.node expanding child)) := by
      refine Draw.mapM_congr fun field hfield => ?_
      rw [drawFieldWith, drawFieldWith]
      refine congrArg (· >>= _) (Content.drawWith_congr fun child hchild => h _ (.field ?_))
      rw [← n.flatMap_contents]
      exact List.mem_flatMap.mpr ⟨field, hfield, hchild⟩
    have hresults : (s.exitsOf n).mapM (Event.drawWith fun v => draw (.value expanding v)) =
        (s.exitsOf n).mapM (Event.drawWith fun v => draw' (.value expanding v)) := by
      refine Draw.mapM_congr fun e he => ?_
      rw [Event.drawWith, Event.drawWith]
      split
      · rfl
      · next v hv => rw [h _ (.exit he hv)]
    rw [drawOnce, drawOnce, hfields, hresults]
  | value expanding v =>
    have hkind : ∀ number, s.drawKind draw expanding v number = s.drawKind draw' expanding v number := by
      intro number
      cases v with
      | returned id inner => rw [drawKind, drawKind, h _ .unwrap]
      | function id closure =>
        rw [drawKind, drawKind]
        split
        · rfl
        · next hnew =>
          have hinside : ∀ n ∈ closure.parameters ++ [closure.body],
              draw (.node (closure.body.id :: expanding) n) =
                draw' (.node (closure.body.id :: expanding) n) :=
            fun n hn => h _ (.expand hnew hn)
          rw [hinside closure.body (List.mem_append_right _ List.mem_cons_self),
            Draw.mapM_congr fun n hn => hinside n (List.mem_append_left _ hn)]
      | _ => rfl
    funext seen
    rw [drawOnce_value_apply, drawOnce_value_apply, hkind, hkind]

end Scene

/-! ## Nothing takes itself -/

/-- The bodies that are open for a job: of the functions in the scene and of the value to be drawn,
those that are not being expanded. -/
def Job.bodies (s : Scene) : Job → List NodeId
  | .node expanding _ => s.bodies.filter (· ∉ expanding)
  | .value expanding v => (s.bodies ++ v.bodies.filter (· ∉ s.bodies)).filter (· ∉ expanding)

/-- What gets smaller from a job to what it takes: the number of open bodies, then a value after its
node, then the size. -/
noncomputable def Job.weight (s : Scene) : Job → Nat × Nat × Nat
  | .node expanding n => ((Job.node expanding n).bodies s |>.length, 1, sizeOf n)
  | .value expanding v => ((Job.value expanding v).bodies s |>.length, 0, sizeOf v)

theorem Node.sizeOf_lt_of_mem_children {n child : Node} (h : child ∈ n.children) :
    sizeOf child < sizeOf n := by
  rw [← n.flatMap_contents] at h
  obtain ⟨⟨name, content⟩, hcontent, hmem⟩ := List.mem_flatMap.mp h
  cases content with
  | leaf d => exact absurd hmem List.not_mem_nil
  | child child' =>
    rw [List.mem_singleton.mp hmem]
    exact Node.sizeOf_child_lt hcontent
  | list nodes => exact Nat.lt_trans (List.sizeOf_lt_of_mem hmem) (Node.sizeOf_list_lt hcontent)

namespace Scene

variable {s : Scene} {expanding : List NodeId} {n : Node} {e : Event} {v : Value} {id : ValueId}
  {closure : Closure}

/-- The bodies in a value that an exit leaves are among those of the scene. -/
theorem bodies_of_exit (mem : e ∈ s.exitsOf n) (left : e.value? = some v) :
    (Job.value expanding v).bodies s = (Job.node expanding n).bodies s := by
  have hnone : v.bodies.filter (· ∉ s.bodies) = [] := by
    refine List.filter_eq_nil_iff.mpr fun b hb => ?_
    have hmem : b ∈ s.bodies := by
      refine List.mem_eraseDups.mpr (List.mem_flatMap.mpr ⟨e, (exit_of_mem mem).1, ?_⟩)
      rwa [left]
    simpa using hmem
  rw [Job.bodies, Job.bodies, hnone, List.append_nil]

/-- The body of a function is open unless it is being expanded. -/
theorem mem_bodies_function :
    closure.body.id ∈ (Job.value expanding (.function id closure)).bodies s ↔
      closure.body.id ∉ expanding := by
  rw [Job.bodies, List.mem_filter, List.mem_append, List.mem_filter, Value.bodies]
  by_cases hbody : closure.body.id ∈ s.bodies <;> simp [hbody]

/-- Expanding a function closes its body and no other. -/
theorem bodies_of_expand (id : ValueId) :
    (Job.node (closure.body.id :: expanding) n).bodies s =
      ((Job.value expanding (.function id closure)).bodies s).filter (· != closure.body.id) := by
  have hextra : ((Value.function id closure).bodies.filter (· ∉ s.bodies)).filter
      (· ∉ closure.body.id :: expanding) = [] := by
    refine List.filter_eq_nil_iff.mpr fun b hb => ?_
    rw [List.mem_singleton.mp (List.mem_filter.mp hb).1]
    simp
  have hsame : ∀ l : List NodeId, (l.filter (· ∉ expanding)).filter (· != closure.body.id) =
      l.filter (· ∉ closure.body.id :: expanding) := by
    intro l
    rw [List.filter_filter]
    refine List.filter_congr fun b _ => ?_
    simp [Bool.and_comm, bne, beq_eq_decide]
  rw [Job.bodies, Job.bodies, hsame, List.filter_append, hextra, List.append_nil]

theorem weight_lt {job inner : Job} (h : s.Takes job inner) :
    Prod.Lex (· < ·) (Prod.Lex (· < ·) (· < ·)) (inner.weight s) (job.weight s) := by
  cases h with
  | field mem => exact .right _ (.right _ (Node.sizeOf_lt_of_mem_children mem))
  | exit mem left =>
    rw [Job.weight, Job.weight, bodies_of_exit mem left]
    exact .right _ (.left _ _ Nat.zero_lt_one)
  | unwrap =>
    refine .right _ (.right _ ?_)
    rw [Value.returned.sizeOf_spec]
    omega
  | @expand _ id _ _ new _ =>
    refine .left _ _ ?_
    rw [bodies_of_expand id]
    exact length_filter_ne_lt (mem_bodies_function.mpr new)

/-- **The recursion of drawing is well-founded.** Down to a value of an exit no body becomes open, and
down into a function one body fewer is. -/
theorem wellFounded_takes (s : Scene) : WellFounded fun inner job => s.Takes job inner :=
  Subrelation.wf weight_lt
    (InvImage.wf (Job.weight s) (wellFounded_lt.prod_lex (wellFounded_lt.prod_lex wellFounded_lt)))

/-! ## Drawing with open bodies is the one recursion -/

/-- Draw a node or a value, told which bodies are open. -/
def draw (s : Scene) : Job → Draw Diagram
  | .node expanding n => drawNode s ((Job.node expanding n).bodies s) n
  | .value expanding v => drawValue s ((Job.value expanding v).bodies s) v

theorem drawNodes_eq_mapM (s : Scene) (bodies : List NodeId) (nodes : List Node) :
    drawNodes s bodies nodes = nodes.mapM (drawNode s bodies) := by
  induction nodes with
  | nil => rw [drawNodes, List.mapM_nil]
  | cons n more ih => rw [drawNodes, ih, List.mapM_cons]

theorem drawFields_eq_mapM (s : Scene) (bodies : List NodeId)
    (contents : List (String × Content)) :
    drawFields s bodies contents = contents.mapM (drawFieldWith (drawNode s bodies)) := by
  induction contents with
  | nil => rfl
  | cons field more ih =>
    obtain ⟨name, content⟩ := field
    have hcontent : drawContent s bodies content = content.drawWith (drawNode s bodies) := by
      cases content with
      | leaf d => rfl
      | child n => rfl
      | list nodes => exact drawNodes_eq_mapM s bodies nodes
    rw [drawFields, ih, hcontent, List.mapM_cons]
    rfl

theorem drawResults_eq_mapM (s : Scene) (bodies : List NodeId) {exits : List Event}
    (h : ∀ e ∈ exits, e.isEntry = false) :
    drawResults s bodies exits = exits.mapM (Event.drawWith (drawValue s bodies)) := by
  induction exits with
  | nil => rw [drawResults, List.mapM_nil]
  | cons e more ih =>
    have ih := ih fun e he => h e (List.mem_cons_of_mem _ he)
    rw [List.mapM_cons]
    cases e with
    | entry step node scope => exact Bool.noConfusion (h _ List.mem_cons_self)
    | exit step node scope value =>
      cases value with
      | none | some _ =>
        rw [drawResults, ih]
        rfl

/-- **Drawing with open bodies does as the recursion without them says.** -/
theorem draw_eq_drawOnce (s : Scene) (job : Job) : s.draw job = s.drawOnce s.draw job := by
  cases job with
  | node expanding n =>
    have hresults : drawResults s ((Job.node expanding n).bodies s) (s.exitsOf n) =
        (s.exitsOf n).mapM (Event.drawWith fun v => s.draw (.value expanding v)) := by
      rw [drawResults_eq_mapM s _ fun e he => (exit_of_mem he).2]
      refine Draw.mapM_congr fun e he => ?_
      rw [Event.drawWith, Event.drawWith]
      split
      · rfl
      · next v hv => rw [draw, bodies_of_exit he hv]
    funext seen
    rw [draw, drawNode_apply, drawOnce, drawFields_eq_mapM, hresults]
    rfl
  | value expanding v =>
    have hkind : ∀ number, drawContentOf s ((Job.value expanding v).bodies s) v number =
        s.drawKind s.draw expanding v number := by
      intro number
      cases v with
      | function id closure =>
        rw [drawContentOf, drawKind, ← bodies_of_expand (n := closure.body) id]
        by_cases hbody : closure.body.id ∈ expanding
        · rw [if_neg (mt mem_bodies_function.mp (not_not_intro hbody)), if_pos hbody]
        · rw [if_pos (mem_bodies_function.mpr hbody), if_neg hbody]
          simp only [drawNodes_eq_mapM]
          rfl
      | _ => rfl
    funext seen
    rw [draw, drawValue_apply, drawOnce_value_apply]
    split
    · cases seen.findIdx? (·.is v) with
      | some number => rfl
      | none => exact congrFun (hkind (some seen.length)) (seen ++ [v])
    · exact congrFun (hkind none) seen

/-- There is no other way to draw that does as the recursion says. -/
theorem eq_draw_of_drawOnce {other : Job → Draw Diagram}
    (h : ∀ job, other job = s.drawOnce other job) : other = s.draw := by
  funext job
  induction job using (wellFounded_takes s).induction with
  | _ job ih => rw [h job, s.draw_eq_drawOnce job, drawOnce_congr ih]

end Scene

/-! ## Bodies expanded on the way down -/

/-- The body of a function. -/
def Value.body? : Value → Option NodeId
  | function _ closure => some closure.body.id
  | _ => none

/-- The bodies of the functions among values. -/
def bodiesAround (around : List Value) : List NodeId := around.filterMap Value.body?

/-- The bodies that are expanded where a value appears: those of the functions drawn around it, and
its own if it is drawn in full. -/
def Appearance.expanded (a : Appearance) : List NodeId :=
  match a.drawing with
  | .value v _ _ => bodiesAround (v :: a.around)
  | _ => bodiesAround a.around

/-- No body is expanded inside itself, and where a function is drawn as a cycle its body would be. -/
structure Appearance.ExpandsOnce (a : Appearance) : Prop where
  nodup : a.expanded.Nodup
  inside : ∀ v number, a.drawing = .cycle v number → a.Inside v

/-- So it is at all appearances in a diagram, where values are drawn around it. -/
def Diagram.ExpandsOnce (around : List Value) (d : Diagram) : Prop :=
  ∀ depth, ∀ a ∈ d.appearances depth around, a.ExpandsOnce

namespace Diagram

variable {around : List Value} {parts : List Diagram} {v : Value} {number : Option Nat}

theorem mem_appearancesAll {depth : Nat} {a : Appearance} {ds : List Diagram}
    (h : a ∈ appearancesAll depth around ds) : ∃ d ∈ ds, a ∈ d.appearances depth around := by
  induction ds with
  | nil => exact absurd h List.not_mem_nil
  | cons d ds ih =>
    rw [appearancesAll] at h
    rcases List.mem_append.mp h with h | h
    · exact ⟨d, List.mem_cons_self, h⟩
    · obtain ⟨d', hd', ha⟩ := ih h
      exact ⟨d', List.mem_cons_of_mem _ hd', ha⟩

theorem expandsOnce_field (h : ∀ d ∈ parts, d.ExpandsOnce around) (name : String) :
    (field name parts).ExpandsOnce around := by
  intro depth a ha
  rw [appearances] at ha
  obtain ⟨d, hd, ha⟩ := mem_appearancesAll ha
  exact h d hd _ a ha

theorem expandsOnce_node (h : ∀ d ∈ parts, d.ExpandsOnce around) (origin : Node)
    (entries exits : List Visit) : (node origin entries exits parts).ExpandsOnce around := by
  intro depth a ha
  rw [appearances] at ha
  obtain ⟨d, hd, ha⟩ := mem_appearancesAll ha
  exact h d hd _ a ha

theorem expandsOnce_result {d : Diagram} (h : d.ExpandsOnce around) (step : Nat) :
    (result step d).ExpandsOnce around := by
  intro depth a ha
  rw [appearances] at ha
  exact h depth a ha

theorem expandsOnce_leaf {d : Diagram} (h : ∀ depth, d.appearances depth around = []) :
    d.ExpandsOnce around := by
  intro depth a ha
  rw [h depth] at ha
  exact absurd ha List.not_mem_nil

/-- A short form of a value expands nothing. -/
theorem expandsOnce_short {d : Diagram} (hnodup : (bodiesAround around).Nodup)
    (h : d = .constant v ∨ (∃ number content, d = .fault v number content) ∨
      ∃ position, d = .reference v position) : d.ExpandsOnce around := by
  intro depth a ha
  rcases h with rfl | ⟨number, content, rfl⟩ | ⟨position, rfl⟩ <;>
    · rw [appearances, List.mem_singleton] at ha
      subst ha
      exact ⟨hnodup, fun _ _ hcycle => (by cases hcycle)⟩

theorem expandsOnce_cycle (hnodup : (bodiesAround around).Nodup)
    (hinside : ∀ depth, Appearance.Inside ⟨depth, around, cycle v number⟩ v) :
    (cycle v number).ExpandsOnce around := by
  intro depth a ha
  rw [appearances, List.mem_singleton] at ha
  subst ha
  refine ⟨hnodup, fun u number' hcycle => ?_⟩
  obtain ⟨rfl, _⟩ := Diagram.cycle.inj hcycle
  exact hinside depth

/-- A value in full expands its body, if it is a function. -/
theorem expandsOnce_value (hnodup : (bodiesAround (v :: around)).Nodup)
    (h : ∀ d ∈ parts, d.ExpandsOnce (v :: around)) : (value v number parts).ExpandsOnce around := by
  intro depth a ha
  rw [appearances] at ha
  rcases List.mem_cons.mp ha with rfl | ha
  · exact ⟨hnodup, fun _ _ hcycle => (by cases hcycle)⟩
  · obtain ⟨d, hd, ha⟩ := mem_appearancesAll ha
    exact h d hd _ a ha

end Diagram

/-- A value that is no function expands nothing of its own. -/
theorem bodiesAround_cons {v : Value} (h : v.body? = none) (around : List Value) :
    bodiesAround (v :: around) = bodiesAround around := List.filterMap_cons_none h

namespace Scene

variable {s : Scene} {expanding : List NodeId} {around : List Value} {v : Value}

/-- A value in full that holds a single word. -/
theorem expandsOnce_word (hnodup : (bodiesAround around).Nodup) (hv : v.body? = none)
    (number : Option Nat) (name : String) {d : Diagram}
    (hd : ∀ depth, d.appearances depth (v :: around) = []) :
    (Diagram.value v number [.field name [d]]).ExpandsOnce around := by
  refine Diagram.expandsOnce_value (by rwa [bodiesAround_cons hv]) fun field hfield => ?_
  rw [List.mem_singleton.mp hfield]
  refine Diagram.expandsOnce_field (fun d' hd' => ?_) name
  rw [List.mem_singleton.mp hd']
  exact Diagram.expandsOnce_leaf hd

/-- A value drawn by its kind expands no body inside itself, if what that takes does not. -/
theorem expandsOnce_drawKind (haround : bodiesAround around = expanding) (hnodup : expanding.Nodup)
    (hinner : ∀ inner, s.Takes (.value expanding v) inner → ∀ around',
      bodiesAround around' = inner.expanding → inner.expanding.Nodup →
        ∀ seen, (s.draw inner seen).1.ExpandsOnce around') (number : Option Nat)
    (seen : List Value) : (s.drawKind s.draw expanding v number seen).1.ExpandsOnce around := by
  subst haround
  cases v with
  | integer id n => exact expandsOnce_word hnodup rfl number "Value" fun _ => rfl
  | boolean id b =>
    rw [drawKind]
    split
    · exact Diagram.expandsOnce_short hnodup (Or.inl rfl)
    · exact expandsOnce_word hnodup rfl number "Value" fun _ => rfl
  | null id =>
    rw [drawKind]
    split
    · exact Diagram.expandsOnce_short hnodup (Or.inl rfl)
    · exact expandsOnce_word hnodup rfl number "Value" fun _ => rfl
  | error id fault =>
    rw [drawKind]
    split
    · exact Diagram.expandsOnce_short hnodup (Or.inr (Or.inl ⟨_, _, rfl⟩))
    · exact expandsOnce_word hnodup rfl number "Message" fun _ => rfl
  | returned id inner =>
    have hsame := bodiesAround_cons (v := .returned id inner) rfl around
    refine Diagram.expandsOnce_value (by rwa [hsame]) fun field hfield => ?_
    rw [List.mem_singleton.mp hfield]
    refine Diagram.expandsOnce_field (fun d hd => ?_) _
    rw [List.mem_singleton.mp hd]
    exact hinner _ .unwrap _ hsame hnodup _
  | function id closure =>
    rw [drawKind]
    split
    · next hmem =>
      refine Diagram.expandsOnce_cycle hnodup fun depth => ?_
      obtain ⟨v, hv, hbody⟩ := List.mem_filterMap.mp hmem
      cases v with
      | function id' closure' => exact ⟨id, closure, id', closure', rfl, hv, Option.some.inj hbody⟩
      | _ => cases hbody
    · next hnew =>
      have hnodup' : (bodiesAround (.function id closure :: around)).Nodup :=
        List.nodup_cons.mpr ⟨hnew, hnodup⟩
      have hnode : ∀ n ∈ closure.parameters ++ [closure.body], ∀ seen,
          (s.draw (.node (closure.body.id :: bodiesAround around) n) seen).1.ExpandsOnce
            (.function id closure :: around) :=
        fun n hn seen => hinner _ (.expand hnew hn) _ rfl hnodup' seen
      refine Diagram.expandsOnce_value hnodup' fun field hfield => ?_
      rcases List.mem_pair.mp hfield with rfl | rfl
      · refine Diagram.expandsOnce_field (fun d hd => ?_) _
        obtain ⟨n, hn, seen', rfl⟩ := Draw.exists_of_mem_mapM hd
        exact hnode n (List.mem_append_left _ hn) _
      · refine Diagram.expandsOnce_field (fun d hd => ?_) _
        rw [List.mem_singleton.mp hd]
        exact hnode _ (List.mem_append_right _ List.mem_cons_self) _

/-- **No body is expanded inside itself.** A body is put on the way down only where it is not on it
already. -/
theorem expandsOnce_draw (s : Scene) (job : Job) (around : List Value)
    (haround : bodiesAround around = job.expanding) (hnodup : job.expanding.Nodup)
    (seen : List Value) : (s.draw job seen).1.ExpandsOnce around := by
  induction job using (wellFounded_takes s).induction generalizing around seen with
  | _ job ih =>
  rw [draw_eq_drawOnce]
  cases job with
  | node expanding n =>
    have hchild : ∀ child ∈ n.children, ∀ seen,
        (s.draw (.node expanding child) seen).1.ExpandsOnce around :=
      fun child hchild seen => ih _ (.field hchild) around haround hnodup seen
    refine Diagram.expandsOnce_node (fun d hd => ?_) n _ _
    rcases List.mem_append.mp hd with hd | hd
    · obtain ⟨⟨name, content⟩, hcontent, seen', rfl⟩ := Draw.exists_of_mem_mapM hd
      refine Diagram.expandsOnce_field (fun d hd => ?_) name
      have hnodes : ∀ child ∈ content.nodes, child ∈ n.children := by
        intro child hchild
        rw [← n.flatMap_contents]
        exact List.mem_flatMap.mpr ⟨_, hcontent, hchild⟩
      cases content with
      | leaf d' =>
        rw [List.mem_singleton.mp hd]
        refine Diagram.expandsOnce_leaf fun depth => ?_
        rcases Node.leaf_of_contents hcontent with ⟨content, rfl⟩ | ⟨spelling, rfl⟩ | rfl <;> rfl
      | child child =>
        rw [List.mem_singleton.mp hd]
        exact hchild child (hnodes child List.mem_cons_self) _
      | list nodes =>
        obtain ⟨child, hmem, seen'', rfl⟩ := Draw.exists_of_mem_mapM hd
        exact hchild child (hnodes child hmem) _
    · obtain ⟨e, he, seen', rfl⟩ := Draw.exists_of_mem_mapM hd
      cases hv : e.value? with
      | none =>
        rw [Event.drawWith, hv]
        exact Diagram.expandsOnce_result (Diagram.expandsOnce_leaf fun _ => rfl) _
      | some v =>
        rw [Event.drawWith, hv]
        exact Diagram.expandsOnce_result (ih _ (.exit he hv) around haround hnodup _) _
  | value expanding v =>
    have hkind := expandsOnce_drawKind (s := s) (v := v) haround hnodup ih
    rw [drawOnce_value_apply]
    split
    · cases seen.findIdx? (·.is v) with
      | some number =>
        exact Diagram.expandsOnce_short (by rwa [haround]) (Or.inr (Or.inr ⟨number, rfl⟩))
      | none => exact hkind _ _
    · exact hkind _ _

/-! ## The tree of an evaluation -/

/-- **Expansion comes to an end,** whatever the trace and the heap are and in every detail and markup.
The recursion of drawing is well-founded, so there is one drawing that does as it says. The tree of
an evaluation is this drawing of the node entered first, and no body is expanded inside itself
anywhere in it. -/
theorem expansion_ends (s : Scene) :
    (WellFounded fun inner job => s.Takes job inner) ∧
      (∀ (draw draw' : Job → Draw Diagram) (job : Job),
        (∀ inner, s.Takes job inner → draw inner = draw' inner) →
          s.drawOnce draw job = s.drawOnce draw' job) ∧
      ∃ draw : Job → Draw Diagram, (∀ job, draw job = s.drawOnce draw job) ∧
        (∀ other : Job → Draw Diagram, (∀ job, other job = s.drawOnce other job) → other = draw) ∧
        (s.trace.root? = none → ∀ m, s.evaluationTree m = m.tree m.missing) ∧
        ∀ root, s.trace.root? = some root →
          (∀ m, s.evaluationTree m = (draw (.node [] root) []).1.write m) ∧
          ∀ a ∈ (draw (.node [] root) []).1.appearances 0 [], a.ExpandsOnce := by
  refine ⟨wellFounded_takes s, fun _ _ _ => drawOnce_congr, s.draw, s.draw_eq_drawOnce,
    fun _ => eq_draw_of_drawOnce, fun hroot m => ?_, fun root hroot => ⟨fun m => ?_, ?_⟩⟩
  · rw [evaluationTree, diagram?, hroot]
    rfl
  · -- with nothing being expanded all bodies of the scene are open
    have hbodies : (Job.node [] root).bodies s = s.bodies :=
      List.filter_eq_self.mpr fun b _ => decide_eq_true List.not_mem_nil
    rw [evaluationTree, diagram?, hroot, draw, hbodies]
    rfl
  · exact expandsOnce_draw s (.node [] root) [] rfl List.nodup_nil [] 0

end Scene

end TraceTree

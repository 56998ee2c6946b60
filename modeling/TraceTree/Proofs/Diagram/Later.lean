import TraceTree.Proofs.Diagram.Moment
import TraceTree.Proofs.Trace.Later

set_option autoImplicit false

/-! # Trees of what is evaluated later

A tree shows steps, the numbers of scopes in the trace and the numbers of shared values in the order in
which they are drawn. None of these is the number of anything that was made, so the tree of an
evaluation does not show what was there before (`Scene.evaluationTree_later`), nor does the tree of a
text (`Node.syntaxTree_later`). The proof goes along the one recursion of drawing: what is drawn for a
job later is what is drawn for it before, with later nodes and values (`Draw.Shifts`). -/

namespace TraceTree

/-! ## Diagrams -/

namespace Diagram

mutual

/-- The same diagram of later nodes and values. -/
def later (p : Past) : Diagram → Diagram
  | node origin entries exits parts =>
    node (origin.later p.nodes) entries exits (laterAll p parts)
  | field name parts => field name (laterAll p parts)
  | result step drawing => result step (later p drawing)
  | text content => text content
  | operator spelling => operator spelling
  | message content => message content
  | missing => missing
  | value v number parts => value (v.later p) number (laterAll p parts)
  | constant v => constant (v.later p)
  | fault v number content => fault (v.later p) number content
  | cycle v number => cycle (v.later p) number
  | reference v number => reference (v.later p) number

/-- The same diagrams of later nodes and values. -/
def laterAll (p : Past) : List Diagram → List Diagram
  | [] => []
  | d :: ds => later p d :: laterAll p ds

end

variable (p : Past) (m : Markup)

theorem laterAll_eq_map (ds : List Diagram) : laterAll p ds = ds.map (later p) := by
  induction ds with
  | nil => rfl
  | cons d ds ih => rw [laterAll, ih, List.map_cons]

@[simp] theorem valueLabel_later (v : Value) (number : Option Nat) :
    valueLabel m (v.later p) number = valueLabel m v number := by
  simp [valueLabel]

theorem constantWord_later (v : Value) : constantWord (v.later p) = constantWord v := by
  cases v with
  | boolean id b => cases b <;> rfl
  | _ => rfl

theorem referenceText_later (v : Value) (number : Nat) :
    referenceText m (v.later p) number = referenceText m v number := by
  have hlabel := valueLabel_later p m v (some number)
  cases v with
  | integer id n => exact congrArg (onOneLine · _) hlabel
  | _ => exact hlabel

mutual

/-- No number of a node or a value is written. -/
theorem lines_later (d : Diagram) (depth : Nat) : (d.later p).lines m depth = d.lines m depth := by
  match d with
  | node origin entries exits parts =>
    rw [later, lines, lines, linesAll_later parts, nodeLabel, nodeLabel, Node.typeName_later]
  | field name parts => rw [later, lines, lines, linesAll_later parts]
  | result step drawing => rw [later, lines, lines, lines_later drawing]
  | text _ | operator _ | message _ | missing => rfl
  | value v number parts => rw [later, lines, lines, linesAll_later parts, valueLabel_later]
  | constant v => rw [later, lines, lines, constantWord_later]
  | fault v number content => rw [later, lines, lines, valueLabel_later]
  | cycle v number => rw [later, lines, lines, valueLabel_later]
  | reference v number => rw [later, lines, lines, referenceText_later]

theorem linesAll_later (ds : List Diagram) (depth : Nat) :
    linesAll m depth (laterAll p ds) = linesAll m depth ds := by
  match ds with
  | [] => rfl
  | d :: ds => rw [laterAll, linesAll, linesAll, lines_later d, linesAll_later ds]

end

end Diagram

/-! ## Fields -/

/-- The same field of later nodes. -/
def Content.later (k : Nat) : Content → Content
  | leaf d => leaf d
  | child n => child (n.later k)
  | list nodes => list (Node.laterAll k nodes)

theorem Node.contents_later (k : Nat) (n : Node) :
    (n.later k).contents = n.contents.map fun field => (field.1, field.2.later k) := by
  cases n with
  | ifExpression id condition consequence alternative => cases alternative <;> rfl
  | _ => rfl

/-! ## Scenes -/

/-- The same scene, later. -/
def Scene.later (p : Past) (s : Scene) : Scene :=
  { s with heap := s.heap.later p, trace := s.trace.later p }

/-- The same job, later. -/
def Job.later (p : Past) : Job → Job
  | node expanding n => node (expanding.map (p.nodes + ·)) (n.later p.nodes)
  | value expanding v => value (expanding.map (p.nodes + ·)) (v.later p)

namespace Scene

variable (p : Past) (s : Scene) (n : Node)

theorem exitsOf_later : (s.later p).exitsOf (n.later p.nodes) = (s.exitsOf n).map (Event.later p) := by
  simp only [exitsOf, later, Trace.later, Array.toList_map, List.filter_map]
  congr 2
  funext e
  simp

theorem entriesOf_later : (s.later p).entriesOf (n.later p.nodes) = s.entriesOf n := by
  simp only [entriesOf, later, Array.toList_map, List.filter_map,
    show (s.trace.later p).events = s.trace.events.map (Event.later p) from rfl, List.map_map]
  have hfilter : (fun e : Event => e.isEntry && e.node.is (n.later p.nodes)) ∘ Event.later p =
      fun e => e.isEntry && e.node.is n := by
    funext e
    simp
  rw [hfilter]
  refine List.map_congr_left fun e _ => ?_
  simp

theorem exitVisits_later : (s.later p).exitVisits (n.later p.nodes) = s.exitVisits n := by
  rw [exitVisits, exitVisits, exitsOf_later, List.map_map]
  refine List.map_congr_left fun e _ => ?_
  simp [later]

variable {s} (hord : ∀ t outer, s.heap.outer? t = some outer → outer < t)

include hord

/-- A value is used later as often as before. -/
theorem uses_later (v : Value) : (s.later p).uses (v.later p) = s.uses v := by
  have hproduces : (fun e : Event => e.produces (v.later p)) ∘ Event.later p =
      fun e => e.produces v := by
    funext e
    simp
  have hreaches : (fun t => (s.heap.later p).reaches t (v.later p)) ∘ p.scope =
      fun t => s.heap.reaches t v := by
    funext t
    exact Heap.reaches_later p t hord v
  simp [uses, holders, later, Trace.later, Array.countP_map, hproduces, hreaches]

theorem isShared_later (v : Value) : (s.later p).isShared (v.later p) = s.isShared v := by
  have huses := uses_later p hord v
  cases v with
  | boolean _ _ | null _ => rfl
  | _ => exact congrArg (fun uses => s.verbosity.sharesValues && decide (1 < uses)) huses

end Scene

/-! ## Drawing -/

/-- What a drawing makes later is what another one makes, later; and so are the values that are numbered
then. -/
def Draw.Shifts {α β : Type} (p : Past) (made : α → β) (draw : Draw α) (draw' : Draw β) : Prop :=
  ∀ seen : List Value, draw' (seen.map (Value.later p)) =
    (made (draw seen).1, (draw seen).2.map (Value.later p))

namespace Draw

variable {α β γ δ : Type} {p : Past} {made : α → β} {made' : γ → δ}

theorem shifts_pure {a : α} {b : β} (h : made a = b) : Shifts p made (pure a) (pure b) := by
  intro seen
  rw [← h]
  rfl

theorem Shifts.bind {draw : Draw α} {draw' : Draw β} {rest : α → Draw γ} {rest' : β → Draw δ}
    (h : Shifts p made draw draw') (hrest : ∀ a, Shifts p made' (rest a) (rest' (made a))) :
    Shifts p made' (draw >>= rest) (draw' >>= rest') := by
  intro seen
  show (let (b, seen') := draw' (seen.map (Value.later p)); rest' b seen') = _
  rw [h seen]
  exact hrest (draw seen).1 (draw seen).2

theorem Shifts.mapM {ε : Type} {f : α → ε} {draw : α → Draw γ} {draw' : ε → Draw δ} {l : List α}
    (h : ∀ a ∈ l, Shifts p made' (draw a) (draw' (f a))) :
    Shifts p (List.map made') (l.mapM draw) ((l.map f).mapM draw') := by
  induction l with
  | nil => exact shifts_pure rfl
  | cons a l ih =>
    rw [List.map_cons, List.mapM_cons, List.mapM_cons]
    refine (h a List.mem_cons_self).bind fun d => ?_
    exact (ih fun b hb => h b (List.mem_cons_of_mem _ hb)).bind fun ds => shifts_pure rfl

end Draw

section

variable {p : Past} {n : Node}

open Draw

/-- A field of a node, where its nodes are drawn later as they are before. -/
theorem shifts_drawFieldWith {draw draw' : Node → Draw Diagram}
    (hdraw : ∀ child ∈ n.children, Shifts p (Diagram.later p) (draw child) (draw' (child.later p.nodes)))
    {field : String × Content} (hfield : field ∈ n.contents) :
    Shifts p (Diagram.later p) (drawFieldWith draw field)
      (drawFieldWith draw' (field.1, field.2.later p.nodes)) := by
  obtain ⟨name, content⟩ := field
  have hnodes : ∀ child ∈ content.nodes,
      Shifts p (Diagram.later p) (draw child) (draw' (child.later p.nodes)) :=
    fun child hchild => hdraw child (Node.mem_children_of_contents hfield hchild)
  have hcontent : Shifts p (List.map (Diagram.later p)) (content.drawWith draw)
      ((content.later p.nodes).drawWith draw') := by
    cases content with
    | leaf d =>
      refine shifts_pure ?_
      rcases Node.leaf_of_contents hfield with ⟨content, rfl⟩ | ⟨spelling, rfl⟩ | rfl <;> rfl
    | child child => exact (hnodes child List.mem_cons_self).bind fun d => shifts_pure rfl
    | list nodes =>
      rw [Content.later, Node.laterAll_eq_map]
      exact Shifts.mapM hnodes
  refine hcontent.bind fun parts => shifts_pure ?_
  rw [Diagram.later, Diagram.laterAll_eq_map]

/-- What an exit leaves, where its value is drawn later as it is before. -/
theorem Event.shifts_drawWith {draw draw' : Value → Draw Diagram} {e : Event}
    (hdraw : ∀ v, e.value? = some v → Shifts p (Diagram.later p) (draw v) (draw' (v.later p))) :
    Shifts p (Diagram.later p) (e.drawWith draw) ((e.later p).drawWith draw') := by
  rw [Event.drawWith, Event.drawWith, value?_later, step_later]
  cases hvalue : e.value? with
  | none => exact shifts_pure rfl
  | some v => exact (hdraw v hvalue).bind fun drawing => shifts_pure rfl

namespace Scene

variable {s : Scene}

/-- A value that is drawn by its kind, where what it takes is drawn later as it is before. -/
theorem shifts_drawKind {draw draw' : Job → Draw Diagram} {expanding : List NodeId} {v : Value}
    (hdraw : ∀ inner, s.Takes (.value expanding v) inner →
      Shifts p (Diagram.later p) (draw inner) (draw' (inner.later p)))
    (number : Option Nat) :
    Shifts p (Diagram.later p) (s.drawKind draw expanding v number)
      ((s.later p).drawKind draw' (expanding.map (p.nodes + ·)) (v.later p) number) := by
  cases v with
  | integer id n => exact shifts_pure rfl
  | boolean id b | null id | error id fault =>
    rw [Value.later, drawKind, drawKind, show (s.later p).verbosity = s.verbosity from rfl]
    by_cases hleaf : s.verbosity.collapsesLeaves = true
    · rw [if_pos hleaf, if_pos hleaf]
      exact shifts_pure rfl
    · rw [if_neg hleaf, if_neg hleaf]
      exact shifts_pure rfl
  | returned id inner => exact (hdraw _ .unwrap).bind fun drawing => shifts_pure rfl
  | function id closure =>
    have hmem : (closure.later p).body.id ∈ expanding.map (p.nodes + ·) ↔
        closure.body.id ∈ expanding := by
      simp [Closure.later]
    rw [Value.later, drawKind, drawKind]
    by_cases hbody : closure.body.id ∈ expanding
    · rw [if_pos hbody, if_pos (hmem.mpr hbody)]
      exact shifts_pure rfl
    · rw [if_neg hbody, if_neg (mt hmem.mp hbody)]
      let drawInside (n : Node) : Draw Diagram :=
        draw' (.node ((closure.later p).body.id :: expanding.map (p.nodes + ·)) n)
      have hnodes : ∀ n ∈ closure.parameters ++ [closure.body], Shifts p (Diagram.later p)
          (draw (.node (closure.body.id :: expanding) n)) (drawInside (n.later p.nodes)) := by
        intro n hn
        have hbodies : (closure.later p).body.id :: expanding.map (p.nodes + ·) =
            (closure.body.id :: expanding).map (p.nodes + ·) := by
          simp [Closure.later]
        show Shifts p _ _ (draw' (.node _ _))
        rw [hbodies]
        exact hdraw _ (.expand hbody hn)
      have hparameters : Shifts p (List.map (Diagram.later p)) _
          ((closure.parameters.map (Node.later p.nodes)).mapM drawInside) :=
        Shifts.mapM fun n hn => hnodes n (List.mem_append_left [closure.body] hn)
      rw [show (closure.later p).parameters = _ from Node.laterAll_eq_map p.nodes closure.parameters]
      refine hparameters.bind fun names => ?_
      refine (hnodes _ (List.mem_append_right _ List.mem_cons_self)).bind fun code => ?_
      refine shifts_pure ?_
      simp only [Diagram.later, Diagram.laterAll, Diagram.laterAll_eq_map, Value.later]

/-- **What is drawn later** is what is drawn before, with later nodes and values. -/
theorem shifts_draw (hord : ∀ t outer, s.heap.outer? t = some outer → outer < t) (job : Job) :
    Shifts p (Diagram.later p) (s.draw job) ((s.later p).draw (job.later p)) := by
  induction job using (wellFounded_takes s).induction with
  | _ job ih =>
  rw [draw_eq_drawOnce, (s.later p).draw_eq_drawOnce]
  cases job with
  | node expanding n =>
    rw [Job.later, drawOnce, drawOnce, Node.contents_later, exitsOf_later, entriesOf_later,
      exitVisits_later]
    refine Shifts.bind (Shifts.mapM fun field hfield =>
      shifts_drawFieldWith (fun child hchild => ih _ (.field hchild)) hfield) fun fields => ?_
    refine Shifts.bind (Shifts.mapM fun e he =>
      Event.shifts_drawWith fun v hv => ih _ (.exit he hv)) fun results => ?_
    refine shifts_pure ?_
    rw [Diagram.later, Diagram.laterAll_eq_map, List.map_append]
  | value expanding v =>
    intro seen
    have hkind := shifts_drawKind ih
    have hfind : (seen.map (Value.later p)).findIdx? (·.is (v.later p)) = seen.findIdx? (·.is v) := by
      rw [List.findIdx?_map]
      congr 1
      funext u
      exact u.is_later p v
    rw [Job.later, drawOnce_value_apply, drawOnce_value_apply, isShared_later p hord, hfind]
    split
    · cases seen.findIdx? (·.is v) with
      | some number => rfl
      | none =>
        have hnumbered := hkind (some seen.length) (seen ++ [v])
        simpa using hnumbered
    · exact hkind none seen

/-! ## Trees -/

/-- **The tree of an evaluation does not show what was there before.** -/
theorem evaluationTree_later (p : Past)
    (hord : ∀ t outer, s.heap.outer? t = some outer → outer < t) (m : Markup) :
    (s.later p).evaluationTree m = s.evaluationTree m := by
  have hroot : (s.later p).trace.root? = s.trace.root?.map (Node.later p.nodes) := by
    show (s.trace.later p).root? = _
    simp only [Trace.root?, Trace.entryAt?, Trace.later, Array.getElem?_map]
    cases s.trace.events[0]? with
    | none => rfl
    | some e => cases e <;> rfl
  rw [evaluationTree, evaluationTree, diagram?, diagram?, hroot]
  cases s.trace.root? with
  | none => rfl
  | some root =>
    have hdraw := shifts_draw (p := p) hord (.node [] root) []
    simp only [Option.map_some, drawNode_root]
    rw [show (s.later p).draw (.node [] (root.later p.nodes)) [] = _ from hdraw, Diagram.write,
      Diagram.write, Diagram.lines_later]

end Scene

/-- **The tree of a text does not show the numbers of its nodes.** -/
theorem Node.syntaxTree_later (k : Nat) (n : Node) (verbosity : Verbosity) (m : Markup) :
    (n.later k).syntaxTree verbosity m = n.syntaxTree verbosity m := by
  have hstill : (Scene.still verbosity).later ⟨.empty, k⟩ = .still verbosity := by
    simp [Scene.later, Scene.still, Heap.later, Heap.empty, Trace.later, Trace.empty]
  have hord : ∀ t outer, (Scene.still verbosity).heap.outer? t = some outer → outer < t :=
    fun t outer houter => (by cases houter)
  have hdraw := Scene.shifts_draw (p := ⟨.empty, k⟩) hord (.node [] n) []
  rw [hstill] at hdraw
  have hroot : ∀ n, drawNode (.still verbosity) [] n [] =
      (Scene.still verbosity).draw (.node [] n) [] := Scene.drawNode_root (.still verbosity)
  rw [syntaxTree, syntaxTree, hroot, hroot,
    show (Scene.still verbosity).draw (.node [] (n.later k)) [] = _ from hdraw, Diagram.write,
    Diagram.write, Diagram.lines_later]

end

end TraceTree

import Mathlib
import TraceTree.Proofs.Diagram.Recursion
import TraceTree.Proofs.Diagram.Writing

set_option autoImplicit false

/-! # A drawing is a syntax tree with annotations

What a trace adds to the drawing of a node are the marks in the labels of the nodes of its syntax
tree, and after the fields of each of them the values of its exits. `Diagram.pieces` cuts the text of
a drawing into what was added and the rest. The rest is the text of the same node where nothing was
evaluated, and nothing is added to nodes that do not occur in the trace
(`drawNode_without_annotations`). -/

namespace TraceTree

/-! ## Texts of diagrams -/

/-- Lines below other ones: each of them on a new line. -/
def Text.onNewLines (lines : List String) : String := String.join (lines.map ("\n" ++ ·))

namespace Text

@[simp] theorem onNewLines_nil : onNewLines [] = "" := rfl

@[simp] theorem onNewLines_cons (line : String) (lines : List String) :
    onNewLines (line :: lines) = "\n" ++ line ++ onNewLines lines := by
  simp [onNewLines]

@[simp] theorem onNewLines_append (first second : List String) :
    onNewLines (first ++ second) = onNewLines first ++ onNewLines second := by
  simp [onNewLines]

theorem intercalate_cons (line : String) (lines : List String) :
    "\n".intercalate (line :: lines) = line ++ onNewLines lines := by
  induction lines generalizing line with
  | nil => simp
  | cons next more ih =>
    rw [String.intercalate_cons_cons, ih, onNewLines_cons]
    simp only [String.append_assoc]

end Text

namespace Diagram

/-- The text of a diagram at a depth, up to the end of its last line. -/
def textAt (m : Markup) (depth : Nat) (d : Diagram) : String := "\n".intercalate (d.lines m depth)

theorem onNewLines_lines (m : Markup) (depth : Nat) (d : Diagram) :
    Text.onNewLines (d.lines m depth) = "\n" ++ d.textAt m depth := by
  have hlines : d.lines m depth ≠ [] := by cases d <;> simp [lines]
  obtain ⟨line, more, hlines⟩ := List.exists_cons_of_ne_nil hlines
  rw [textAt, hlines, Text.intercalate_cons, Text.onNewLines_cons, String.append_assoc]

theorem textAt_node (m : Markup) (depth : Nat) (origin : Node) (entries exits : List Visit)
    (parts : List Diagram) :
    (node origin entries exits parts).textAt m depth =
      indent depth ++
        Markup.opening (leftMarks m entries ++ m.text origin.typeName ++ rightMarks m exits) ++
        Text.onNewLines (linesAll m (depth + 1) parts) ++ "\n" ++ (indent depth ++ "]") := by
  rw [textAt, lines_node, Text.intercalate_cons]
  simp [String.append_assoc]

theorem textAt_field (m : Markup) (depth : Nat) (name : String) (parts : List Diagram) :
    (field name parts).textAt m depth =
      indent depth ++ Markup.opening (m.field name) ++
        Text.onNewLines (linesAll m (depth + 1) parts) ++ "\n" ++ (indent depth ++ "]") := by
  rw [textAt, lines, Text.intercalate_cons]
  simp [String.append_assoc]

/-! ## What a trace adds -/

/-- Whether a diagram is the value of an exit. -/
def isResult : Diagram → Bool
  | result _ _ => true
  | _ => false

mutual

/-- A drawing without what a trace adds to its syntax tree: without marks in the labels of nodes, and
without the values of exits. -/
def unannotated : Diagram → Diagram
  | node origin _ _ parts => node origin [] [] (unannotatedAll parts)
  | field name parts => field name (unannotatedAll parts)
  | d => d

/-- The parts of a drawing without what a trace adds. -/
def unannotatedAll : List Diagram → List Diagram
  | [] => []
  | d :: ds => if d.isResult then unannotatedAll ds else d.unannotated :: unannotatedAll ds

end

/-- A piece of the text of a drawing. -/
structure Piece where
  /-- Whether it is there because of the trace. -/
  added : Bool
  text : String

namespace Piece

/-- The text that pieces make up. -/
def whole (pieces : List Piece) : String := String.join (pieces.map (·.text))

/-- The text that is left of pieces without those that were added. -/
def remaining (pieces : List Piece) : String := whole (pieces.filter (!·.added))

@[simp] theorem whole_nil : whole [] = "" := rfl

@[simp] theorem whole_cons (piece : Piece) (pieces : List Piece) :
    whole (piece :: pieces) = piece.text ++ whole pieces := by
  simp [whole]

@[simp] theorem whole_append (first second : List Piece) :
    whole (first ++ second) = whole first ++ whole second := by
  simp [whole]

@[simp] theorem remaining_nil : remaining [] = "" := rfl

@[simp] theorem remaining_cons (piece : Piece) (pieces : List Piece) :
    remaining (piece :: pieces) =
      (if piece.added then "" else piece.text) ++ remaining pieces := by
  cases hadded : piece.added <;> simp [remaining, hadded]

@[simp] theorem remaining_append (first second : List Piece) :
    remaining (first ++ second) = remaining first ++ remaining second := by
  simp [remaining]

end Piece

mutual

/-- The text of a drawing in pieces. Added are, at each node of the syntax tree, the marks of its
entries and exits, and each of its values with the line of the edge that it hangs from. -/
def pieces (m : Markup) (depth : Nat) : Diagram → List Piece
  | node origin entries exits parts =>
    [⟨false, indent depth ++ "[.\x7b"⟩, ⟨true, leftMarks m entries⟩,
      ⟨false, m.text origin.typeName⟩, ⟨true, rightMarks m exits⟩, ⟨false, "\x7d"⟩] ++
      piecesBelow m (depth + 1) parts ++ [⟨false, "\n" ++ (indent depth ++ "]")⟩]
  | field name parts =>
    [⟨false, indent depth ++ Markup.opening (m.field name)⟩] ++ piecesBelow m (depth + 1) parts ++
      [⟨false, "\n" ++ (indent depth ++ "]")⟩]
  | d => [⟨d.isResult, d.textAt m depth⟩]

/-- The text of diagrams, each on a new line, in pieces. -/
def piecesBelow (m : Markup) (depth : Nat) : List Diagram → List Piece
  | [] => []
  | d :: ds => ⟨d.isResult, "\n"⟩ :: (pieces m depth d ++ piecesBelow m depth ds)

end

section

variable (m : Markup)

mutual

/-- **The pieces of a drawing make up its text.** -/
theorem whole_pieces (depth : Nat) (d : Diagram) : Piece.whole (d.pieces m depth) = d.textAt m depth := by
  cases d with
  | node origin entries exits parts =>
    have hparts := whole_piecesBelow (depth + 1) parts
    rw [textAt_node, pieces]
    simp [hparts, Markup.opening, String.append_assoc]
  | field name parts =>
    have hparts := whole_piecesBelow (depth + 1) parts
    rw [textAt_field, pieces]
    simp [hparts, String.append_assoc]
  | _ => simp [pieces]

theorem whole_piecesBelow (depth : Nat) (ds : List Diagram) :
    Piece.whole (piecesBelow m depth ds) = Text.onNewLines (linesAll m depth ds) := by
  cases ds with
  | nil => rfl
  | cons d ds =>
    have hd := whole_pieces depth d
    have hds := whole_piecesBelow depth ds
    rw [piecesBelow, linesAll, Text.onNewLines_append, onNewLines_lines]
    simp [hd, hds, String.append_assoc]

end

mutual

/-- **Without the added pieces the text is that of the drawing without annotations.** -/
theorem remaining_pieces (depth : Nat) (d : Diagram) :
    Piece.remaining (d.pieces m depth) =
      if d.isResult then "" else d.unannotated.textAt m depth := by
  cases d with
  | node origin entries exits parts =>
    have hparts := remaining_piecesBelow (depth + 1) parts
    rw [unannotated, textAt_node, pieces]
    simp [hparts, isResult, Markup.opening, leftMarks, rightMarks, String.append_assoc]
  | field name parts =>
    have hparts := remaining_piecesBelow (depth + 1) parts
    rw [unannotated, textAt_field, pieces]
    simp [hparts, isResult, String.append_assoc]
  | _ => simp [pieces, isResult, unannotated]

theorem remaining_piecesBelow (depth : Nat) (ds : List Diagram) :
    Piece.remaining (piecesBelow m depth ds) =
      Text.onNewLines (linesAll m depth (unannotatedAll ds)) := by
  cases ds with
  | nil => rfl
  | cons d ds =>
    have hd := remaining_pieces depth d
    have hds := remaining_piecesBelow depth ds
    rw [piecesBelow, unannotatedAll]
    cases hresult : d.isResult with
    | true => simp [hd, hds, hresult]
    | false =>
      simp only [Bool.false_eq_true, if_false]
      rw [linesAll, Text.onNewLines_append, onNewLines_lines]
      simp [hd, hds, hresult, String.append_assoc]

end

end

theorem unannotatedAll_cons {d : Diagram} (hd : d.isResult = false) (ds : List Diagram) :
    unannotatedAll (d :: ds) = d.unannotated :: unannotatedAll ds := by
  simp [unannotatedAll, hd]

/-- Results are left out. -/
theorem unannotatedAll_append_results {ds results : List Diagram}
    (hresults : ∀ d ∈ results, d.isResult = true) :
    unannotatedAll (ds ++ results) = unannotatedAll ds := by
  induction ds with
  | nil =>
    induction results with
    | nil => rfl
    | cons d more ih =>
      have hfirst : d.isResult = true := hresults d List.mem_cons_self
      have hmore := ih fun d hd => hresults d (List.mem_cons_of_mem _ hd)
      simpa [unannotatedAll, hfirst] using hmore
  | cons d more ih => simp [unannotatedAll, ih]

end Diagram

/-! ## Drawings of one node -/

/-- No event is one of a node or of a node below it. -/
def Scene.Unvisited (s : Scene) (n : Node) : Prop :=
  ∀ k, n.Within k → ∀ e ∈ s.trace.events.toList, e.node.is k = false

namespace Scene

variable {s : Scene} {n : Node}

theorem unvisited_still (verbosity : Verbosity) (n : Node) : (still verbosity).Unvisited n :=
  fun _ _ _ he => absurd he List.not_mem_nil

theorem Unvisited.child (h : s.Unvisited n) {child : Node} (hchild : child ∈ n.children) :
    s.Unvisited child :=
  fun k hk => h k (Node.Within.trans (.child .self hchild) hk)

theorem Unvisited.entriesOf_eq (h : s.Unvisited n) : s.entriesOf n = [] := by
  rw [entriesOf, List.filter_eq_nil_iff.mpr, List.map_nil]
  intro e he
  simp [h n .self e he]

theorem Unvisited.exitsOf_eq (h : s.Unvisited n) : s.exitsOf n = [] := by
  rw [exitsOf, List.filter_eq_nil_iff]
  intro e he
  simp [h n .self e he]

theorem Unvisited.exitVisits_eq (h : s.Unvisited n) : s.exitVisits n = [] := by
  rw [exitVisits, h.exitsOf_eq, List.map_nil]

end Scene

/-- What is drawn for exits are results. -/
theorem isResult_of_mem_drawResults {s : Scene} {bodies : List NodeId} {exits : List Event}
    {seen : List Value} {d : Diagram} (hd : d ∈ (drawResults s bodies exits seen).1) :
    d.isResult = true := by
  induction exits generalizing seen with
  | nil =>
    rw [drawResults] at hd
    exact absurd hd List.not_mem_nil
  | cons e more ih =>
    cases e with
    | entry step node scope =>
      rw [drawResults] at hd
      exact ih hd
    | exit step node scope value =>
      cases value with
      | none =>
        rw [drawResults] at hd
        rcases List.mem_cons.mp hd with rfl | hd
        · rfl
        · exact ih hd
      | some v =>
        rw [drawResults] at hd
        rcases List.mem_cons.mp hd with rfl | hd
        · rfl
        · exact ih hd

theorem isResult_drawNode (s : Scene) (bodies : List NodeId) (n : Node) (seen : List Value) :
    (drawNode s bodies n seen).1.isResult = false := by
  rw [drawNode_apply]
  rfl

theorem Node.mem_children_of_contents {n child : Node} {name : String} {content : Content}
    (h : (name, content) ∈ n.contents) (hchild : child ∈ content.nodes) : child ∈ n.children := by
  rw [← n.flatMap_contents]
  exact List.mem_flatMap.mpr ⟨_, h, hchild⟩

mutual

/-- **Without annotations the drawing of a node is the one in which nothing is evaluated.** -/
theorem unannotated_drawNode (s s₀ : Scene) (bodies bodies₀ : List NodeId) (n : Node)
    (hn : s₀.Unvisited n) (seen seen₀ : List Value) :
    (drawNode s bodies n seen).1.unannotated = (drawNode s₀ bodies₀ n seen₀).1 := by
  -- the fields, by induction on those that are left
  have hfields : ∀ (contents : List (String × Content)) (seen seen₀ : List Value),
      contents ⊆ n.contents →
        Diagram.unannotatedAll (drawFields s bodies contents seen).1 =
          (drawFields s₀ bodies₀ contents seen₀).1 := by
    intro contents
    induction contents with
    | nil => exact fun _ _ _ => rfl
    | cons field more ih =>
      intro seen seen₀ hsub
      obtain ⟨name, content⟩ := field
      have hmem : (name, content) ∈ n.contents := hsub List.mem_cons_self
      have hcontent : Diagram.unannotatedAll (drawContent s bodies content seen).1 =
          (drawContent s₀ bodies₀ content seen₀).1 := by
        cases content with
        | leaf d =>
          rcases Node.leaf_of_contents hmem with ⟨content, rfl⟩ | ⟨spelling, rfl⟩ | rfl <;> rfl
        | child child =>
          have hlt := Node.sizeOf_child_lt hmem
          have hchild := unannotated_drawNode s s₀ bodies bodies₀ child
            (hn.child (Node.mem_children_of_contents hmem List.mem_cons_self)) seen seen₀
          show Diagram.unannotatedAll [(drawNode s bodies child seen).1] = [_]
          rw [Diagram.unannotatedAll_cons (isResult_drawNode s bodies child seen), hchild]
          rfl
        | list nodes =>
          have hlt := Node.sizeOf_list_lt hmem
          exact unannotated_drawNodes s s₀ bodies bodies₀ nodes
            (fun k hk => hn.child (Node.mem_children_of_contents hmem hk)) seen seen₀
      have hmore := ih (drawContent s bodies content seen).2
        (drawContent s₀ bodies₀ content seen₀).2 fun _ h => hsub (List.mem_cons_of_mem _ h)
      exact congrArg₂ (fun parts others => .field name parts :: others) hcontent hmore
  have hparts := hfields n.contents seen seen₀ (List.Subset.refl _)
  rw [drawNode_apply, drawNode_apply, hn.exitsOf_eq, hn.entriesOf_eq, hn.exitVisits_eq, drawResults]
  show Diagram.node n [] [] (Diagram.unannotatedAll (_ ++ _)) = .node n [] [] (_ ++ [])
  rw [Diagram.unannotatedAll_append_results fun d hd => isResult_of_mem_drawResults hd, hparts,
    List.append_nil]
termination_by sizeOf n

/-- The same of nodes one after another. -/
theorem unannotated_drawNodes (s s₀ : Scene) (bodies bodies₀ : List NodeId) (nodes : List Node)
    (hnodes : ∀ n ∈ nodes, s₀.Unvisited n) (seen seen₀ : List Value) :
    Diagram.unannotatedAll (drawNodes s bodies nodes seen).1 =
      (drawNodes s₀ bodies₀ nodes seen₀).1 := by
  cases nodes with
  | nil =>
    rw [drawNodes, drawNodes]
    rfl
  | cons n more =>
    have hfirst := unannotated_drawNode s s₀ bodies bodies₀ n (hnodes n List.mem_cons_self) seen seen₀
    have hothers := unannotated_drawNodes s s₀ bodies bodies₀ more
      (fun k hk => hnodes k (List.mem_cons_of_mem _ hk)) (drawNode s bodies n seen).2
      (drawNode s₀ bodies₀ n seen₀).2
    rw [drawNodes, drawNodes]
    show Diagram.unannotatedAll ((drawNode s bodies n seen).1 :: _) = _ :: _
    rw [Diagram.unannotatedAll_cons (isResult_drawNode s bodies n seen), hfirst]
    exact congrArg (_ :: ·) hothers
termination_by sizeOf nodes

end

/-- **An evaluation tree is a syntax tree plus annotations.** Whatever the trace, the verbosity and the
markup are, and at any depth: of the pieces that the text of a drawn node is made of, those that the
trace did not add make up the text of the same node where nothing was evaluated. A node that the trace
does not visit, neither itself nor below, has this very text. For the node that was entered first,
these are the trees of the evaluation and of the syntax. -/
theorem drawNode_without_annotations (s : Scene) (bodies : List NodeId) (n : Node)
    (seen : List Value) (m : Markup) (depth : Nat) :
    let drawn := (drawNode s bodies n seen).1
    let plain := (drawNode (.still s.verbosity) [] n []).1
    Diagram.Piece.whole (drawn.pieces m depth) = drawn.textAt m depth ∧
      Diagram.Piece.remaining (drawn.pieces m depth) = plain.textAt m depth ∧
      (s.Unvisited n → drawn.textAt m depth = plain.textAt m depth) ∧
      (s.trace.root? = some n →
        let pieces := (drawNode s s.bodies n []).1.pieces m 0
        s.evaluationTree m = m.tree (Diagram.Piece.whole pieces) ∧
          n.syntaxTree s.verbosity m = m.tree (Diagram.Piece.remaining pieces)) := by
  intro drawn plain
  have hstill := Scene.unvisited_still s.verbosity n
  have hremaining : ∀ (bodies : List NodeId) (seen : List Value) (depth : Nat),
      Diagram.Piece.remaining ((drawNode s bodies n seen).1.pieces m depth) =
        plain.textAt m depth := by
    intro bodies seen depth
    rw [Diagram.remaining_pieces, isResult_drawNode,
      unannotated_drawNode s (.still s.verbosity) bodies [] n hstill seen []]
    rfl
  refine ⟨Diagram.whole_pieces m depth drawn, hremaining bodies seen depth, fun hn => ?_,
    fun hroot => ⟨?_, ?_⟩⟩
  · -- both are the drawing without annotations
    have hself := unannotated_drawNode s s bodies bodies n hn seen seen
    have hplain := unannotated_drawNode s (.still s.verbosity) bodies [] n hstill seen []
    exact congrArg (·.textAt m depth) (hself.symm.trans hplain)
  · rw [Diagram.whole_pieces, Scene.evaluationTree, Scene.diagram?, hroot]
    rfl
  · rw [hremaining]
    rfl

/-- The node of the block that is not evaluated in `takenConditional`. -/
def untakenBranch : Node := .block 5 [.expressionStatement 6 (.integer 7 2)]

/-- The node of `if (true) { 1 } else { 2 }`. -/
def takenConditional : Node :=
  .ifExpression 0 (.boolean 1 true) (.block 2 [.expressionStatement 3 (.integer 4 1)])
    (some untakenBranch)

/-- What is left of the evaluation of `takenConditional`. -/
def takenScene : Scene :=
  let after := ((Machine.new (Heap.empty.newScope none).2 9 true).eval takenConditional 0).2
  ⟨after.heap, after.trace, ⟨0⟩⟩

/-- The branch that is not taken is drawn as in the syntax tree of the conditional. -/
theorem drawNode_without_annotations_untakenBranch :
    takenScene.Unvisited untakenBranch ∧ takenScene.trace.root? = some takenConditional ∧
      (drawNode takenScene takenScene.bodies untakenBranch []).1.textAt .plain 2 =
        (drawNode (.still takenScene.verbosity) [] untakenBranch []).1.textAt .plain 2 ∧
      takenConditional.syntaxTree takenScene.verbosity .plain =
        Markup.plain.tree (Diagram.Piece.remaining
          ((drawNode takenScene takenScene.bodies takenConditional []).1.pieces .plain 0)) := by
  have hroot : takenScene.trace.root? = some takenConditional := by cbv
  have hvisited : takenScene.trace.events.toList.map (·.node.id) =
      [0, 1, 1, 2, 3, 4, 4, 3, 2, 0] := by cbv
  have hbelow : ∀ k, untakenBranch.Within k → k.id ∈ [5, 6, 7] := by
    intro k hk
    rcases hk.eq_or_child with rfl | ⟨statement, hmem, hk⟩
    · decide
    obtain rfl := List.mem_singleton.mp hmem
    rcases hk.eq_or_child with rfl | ⟨expression, hmem, hk⟩
    · decide
    obtain rfl := List.mem_singleton.mp hmem
    rcases hk.eq_or_child with rfl | ⟨part, hmem, hk⟩
    · decide
    · cases hmem
  have hn : takenScene.Unvisited untakenBranch := by
    intro k hk e he
    have hid : e.node.id ∈ [0, 1, 1, 2, 3, 4, 4, 3, 2, 0] := hvisited ▸ List.mem_map_of_mem he
    have hapart : ∀ id ∈ [0, 1, 1, 2, 3, 4, 4, 3, 2, 0], id ∉ [5, 6, 7] := by decide
    simp only [Node.is, beq_eq_false_iff_ne]
    intro heq
    rw [heq] at hid
    exact hapart _ hid (hbelow k hk)
  have hbranch := drawNode_without_annotations takenScene takenScene.bodies untakenBranch [] .plain 2
  have hwhole := drawNode_without_annotations takenScene takenScene.bodies takenConditional [] .plain 0
  exact ⟨hn, hroot, hbranch.2.2.1 hn, (hwhole.2.2.2 hroot).2⟩

end TraceTree

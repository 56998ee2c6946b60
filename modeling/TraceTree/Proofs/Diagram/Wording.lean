import TraceTree.Proofs.Diagram.Bare
import TraceTree.Proofs.Diagram.Moment
import TraceTree.Proofs.Eval.Spelling

set_option autoImplicit false

/-! # The words of a drawing

The words in a drawing are names of the fields and kinds of nodes and values, numbers, operators, the
names in nodes and the messages of faults. So if the names have no brackets and no line breaks in
them, the drawing is bare (`Scene.bare_draw`), and the tree of an evaluation is well-formed. -/

namespace TraceTree

/-- A name without brackets and line breaks. -/
def IsBareName (name : String) : Prop := Text.Bare name.toList

/-! ## Words -/

theorem PrefixOp.bare_text (op : PrefixOp) : Text.Bare op.text.toList := by
  cases op <;> decide

theorem InfixOp.bare_text (op : InfixOp) : Text.Bare op.text.toList := by
  cases op <;> decide

theorem ValueType.bare_name (type : ValueType) : Text.Bare type.name.toList := by
  cases type <;> decide

/-- **The message of a fault** is bare if the name in it is. -/
theorem Fault.SpelledWith.bare_message {fault : Fault} (h : fault.SpelledWith IsBareName) :
    Text.Bare fault.message.toList := by
  -- all words of a message but the name are fixed, or names of types and operators
  cases fault with
  | unboundIdentifier name =>
    show Text.Bare ("identifier not found: " ++ name).toList
    rw [Text.bare_toList_append]
    exact ⟨by decide, h⟩
  | notAFunction type =>
    show Text.Bare ("not a function: " ++ type.name).toList
    rw [Text.bare_toList_append]
    exact ⟨by decide, type.bare_name⟩
  | wrongArity want got =>
    show Text.Bare ("wrong number of arguments: want=" ++ toString want ++ ", got=" ++
      toString got).toList
    simp only [Text.bare_toList_append]
    exact ⟨⟨⟨by decide, Text.bare_toString_nat want⟩, by decide⟩, Text.bare_toString_nat got⟩
  | typeMismatch left op right =>
    show Text.Bare ("type mismatch: " ++ left.name ++ " " ++ op.text ++ " " ++ right.name).toList
    simp only [Text.bare_toList_append]
    exact ⟨⟨⟨⟨⟨by decide, left.bare_name⟩, by decide⟩, op.bare_text⟩, by decide⟩, right.bare_name⟩
  | unknownInfix left op right =>
    show Text.Bare ("unknown operator: " ++ left.name ++ " " ++ op.text ++ " " ++ right.name).toList
    simp only [Text.bare_toList_append]
    exact ⟨⟨⟨⟨⟨by decide, left.bare_name⟩, by decide⟩, op.bare_text⟩, by decide⟩, right.bare_name⟩
  | unknownPrefix op right =>
    show Text.Bare ("unknown operator: " ++ op.text ++ right.name).toList
    simp only [Text.bare_toList_append]
    exact ⟨⟨by decide, op.bare_text⟩, right.bare_name⟩
  | divisionByZero => exact of_decide_eq_true (by decide)
  | stated message => exact absurd h id

namespace Node

variable {n : Node} {name : String}

theorem bare_name_of_contents {content : Content} (h : (name, content) ∈ n.contents) :
    Text.Bare name.toList := by
  have hnames : name ∈ n.contents.map (·.1) := List.mem_map.mpr ⟨_, h, rfl⟩
  have hall : ∀ name ∈ n.contents.map (·.1), Text.Bare name.toList := by
    cases n with
    | ifExpression id condition consequence alternative =>
      cases alternative <;> simp only [contents, List.map] <;> decide
    | _ =>
      simp only [contents, List.map]
      decide
  exact hall name hnames

theorem bare_leaf_of_contents (hn : n.SpelledWith IsBareName) {d : Diagram}
    (h : (name, .leaf d) ∈ n.contents) : d.Bare := by
  cases n with
  | ifExpression id condition consequence alternative =>
    cases alternative <;> simp [contents] at h
    rw [h.2]
    exact .missing
  | identifier id name =>
    simp [contents] at h
    rw [h.2]
    exact .text hn.name
  | boolean id value =>
    simp [contents] at h
    rw [h.2]
    exact .text (by cases value <;> decide)
  | integer id value =>
    simp [contents] at h
    rw [h.2]
    exact .text (Text.bare_toString_int _)
  | prefixExpression id op _ | infixExpression id op _ _ =>
    simp [contents] at h
    rw [h.2]
    exact .operator op.bare_text
  | _ => simp [contents] at h

end Node

/-- A field that holds one diagram. -/
theorem Diagram.bare_fieldOf {name : String} (hname : Text.Bare name.toList) {d : Diagram}
    (hd : d.Bare) : (Diagram.field name [d]).Bare :=
  .field hname (List.forall_mem_singleton.mpr hd)

/-! ## Drawings -/

/-- All names in what is to be drawn are bare. -/
def Job.Bare : Job → Prop
  | node _ n => n.SpelledWith IsBareName
  | value _ v => v.SpelledWith IsBareName

namespace Scene

variable {s : Scene} {expanding : List NodeId} {v : Value}

/-- All names in the values of the exits are bare. -/
def Bare (s : Scene) : Prop :=
  ∀ e ∈ s.trace.events.toList, ∀ v, e.value? = some v → v.SpelledWith IsBareName

/-- A value in full that holds a single word. -/
theorem bare_word (number : Option Nat) {name : String} (hname : Text.Bare name.toList)
    {d : Diagram} (hd : d.Bare) : (Diagram.value v number [.field name [d]]).Bare :=
  .value (List.forall_mem_singleton.mpr (Diagram.bare_fieldOf hname hd))

/-- A value that is drawn by its kind is bare if what that takes is. -/
theorem bare_drawKind {draw : Job → Draw Diagram} (hv : v.SpelledWith IsBareName)
    (hinner : ∀ inner, s.Takes (.value expanding v) inner → inner.Bare →
      ∀ seen, (draw inner seen).1.Bare) (number : Option Nat) (seen : List Value) :
    (s.drawKind draw expanding v number seen).1.Bare := by
  cases v with
  | integer id n => exact bare_word number (by decide) (.text (Text.bare_toString_int _))
  | boolean id b =>
    rw [drawKind]
    split
    · exact .constant
    · exact bare_word number (by decide) (.text (by cases b <;> decide))
  | null id =>
    rw [drawKind]
    split
    · exact .constant
    · exact bare_word number (by decide) (.text (by decide))
  | error id fault =>
    rw [drawKind]
    split
    · exact .fault (Fault.SpelledWith.bare_message hv)
    · exact bare_word number (by decide) (.message (Fault.SpelledWith.bare_message hv))
  | returned id inner => exact bare_word number (by decide) (hinner _ .unwrap hv seen)
  | function id closure =>
    rw [drawKind]
    split
    · exact .cycle
    · next hnew =>
      have hnode : ∀ n ∈ closure.parameters ++ [closure.body], ∀ seen,
          (draw (.node (closure.body.id :: expanding) n) seen).1.Bare :=
        fun n hn => hinner _ (.expand hnew hn) (hv n hn)
      refine .value fun field hfield => ?_
      rcases List.mem_pair.mp hfield with rfl | rfl
      · refine .field (by decide) fun d hd => ?_
        obtain ⟨n, hn, seen', rfl⟩ := Draw.exists_of_mem_mapM hd
        exact hnode n (List.mem_append_left _ hn) _
      · exact Diagram.bare_fieldOf (by decide)
          (hnode _ (List.mem_append_right _ List.mem_cons_self) _)

/-- **Drawings are bare** if the names in what is drawn are. -/
theorem bare_draw (hs : s.Bare) (job : Job) (hjob : job.Bare) (seen : List Value) :
    (s.draw job seen).1.Bare := by
  induction job using (wellFounded_takes s).induction generalizing seen with
  | _ job ih =>
  rw [draw_eq_drawOnce]
  cases job with
  | node expanding n =>
    -- the parts of a node are its fields and then the values of its exits
    have hchild : ∀ child ∈ n.children, ∀ seen, (s.draw (.node expanding child) seen).1.Bare :=
      fun child hchild => ih _ (.field hchild) (Node.SpelledWith.child hjob hchild)
    refine .node fun d hd => ?_
    rcases List.mem_append.mp hd with hd | hd
    · obtain ⟨⟨name, content⟩, hcontent, seen', rfl⟩ := Draw.exists_of_mem_mapM hd
      refine .field (Node.bare_name_of_contents hcontent) fun d hd => ?_
      cases content with
      | leaf d' =>
        rw [List.mem_singleton.mp hd]
        exact Node.bare_leaf_of_contents hjob hcontent
      | child child =>
        rw [List.mem_singleton.mp hd]
        exact hchild child (Node.mem_children_of_contents hcontent List.mem_cons_self) _
      | list nodes =>
        obtain ⟨child, hmem, seen'', rfl⟩ := Draw.exists_of_mem_mapM hd
        exact hchild child (Node.mem_children_of_contents hcontent hmem) _
    · obtain ⟨e, he, seen', rfl⟩ := Draw.exists_of_mem_mapM hd
      cases hv : e.value? with
      | none =>
        rw [Event.drawWith, hv]
        exact .result .missing
      | some v =>
        rw [Event.drawWith, hv]
        exact .result (ih _ (.exit he hv) (hs e (exit_of_mem he).1 v hv) _)
  | value expanding v =>
    have hkind : ∀ number seen, (s.drawKind s.draw expanding v number seen).1.Bare :=
      bare_drawKind hjob fun inner => ih inner
    rw [drawOnce_value_apply]
    split
    · cases seen.findIdx? (·.is v) with
      | some number => exact .reference
      | none => exact hkind _ _
    · exact hkind _ _

/-- **A drawn tree is well-formed** if the names in what is drawn are bare. -/
theorem wellBracketed_drawNode (hs : s.Bare) {root : Node} (hroot : root.SpelledWith IsBareName) :
    Text.WellBracketed ((drawNode s s.bodies root []).1.write .plain).toList := by
  have hbare : (drawNode s s.bodies root []).1.Bare := by
    rw [drawNode_root]
    exact bare_draw hs (.node [] root) hroot []
  rw [drawNode_apply] at hbare ⊢
  exact Diagram.wellBracketed_node hbare

end Scene

end TraceTree

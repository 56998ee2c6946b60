import Mathlib
import TraceTree.Proofs.Diagram.Annotation
import TraceTree.Proofs.Diagram.Expansion

set_option autoImplicit false

/-! # One trace on two heaps

A drawing looks at the heap for one thing only: whether a value is used in several places. So two
drawings of one trace, on two heaps, go in step as long as both heaps say the same of each value that
they come to. Where the heaps differ for the first time the texts do so too, in the label of the value
(`Scene.Diverging.label`), and no text behind that can make up for it (`Text.Diverge.append`). Hence
the texts are equal if and only if the heaps agree about each value that is shown
(`Scene.lockstep_draw`). -/

namespace TraceTree

/-! ## Texts that diverge -/

/-- Two texts begin in the same way and then have different characters. -/
def Text.Diverge (a b : String) : Prop :=
  ∃ common c c' rest rest', a.toList = common ++ c :: rest ∧ b.toList = common ++ c' :: rest' ∧
    c ≠ c'

namespace Text.Diverge

variable {a b : String}

theorem symm (h : Diverge a b) : Diverge b a := by
  obtain ⟨common, c, c', rest, rest', ha, hb, hne⟩ := h
  exact ⟨common, c', c, rest', rest, hb, ha, hne.symm⟩

theorem ne (h : Diverge a b) : a ≠ b := by
  obtain ⟨common, c, c', rest, rest', ha, hb, hne⟩ := h
  rintro rfl
  have hcons : c :: rest = c' :: rest' := List.append_cancel_left (ha.symm.trans hb)
  exact hne (List.cons.inj hcons).1

/-- Whatever follows, the texts stay different. -/
theorem append (h : Diverge a b) (x y : String) : Diverge (a ++ x) (b ++ y) := by
  obtain ⟨common, c, c', rest, rest', ha, hb, hne⟩ := h
  exact ⟨common, c, c', rest ++ x.toList, rest' ++ y.toList, by simp [ha], by simp [hb], hne⟩

theorem prepend (h : Diverge a b) (x : String) : Diverge (x ++ a) (x ++ b) := by
  obtain ⟨common, c, c', rest, rest', ha, hb, hne⟩ := h
  exact ⟨x.toList ++ common, c, c', rest, rest', by simp [ha], by simp [hb], hne⟩

theorem of_heads {c c' : Char} (ha : a.toList.head? = some c) (hb : b.toList.head? = some c')
    (hne : c ≠ c') : Diverge a b := by
  obtain ⟨rest, ha⟩ := List.head?_eq_some_iff.mp ha
  obtain ⟨rest', hb⟩ := List.head?_eq_some_iff.mp hb
  exact ⟨[], c, c', rest, rest', ha, hb, hne⟩

end Text.Diverge

/-! ## Labels -/

namespace Markup

theorem toNat_lowered (c : Char) : 0x2080 ≤ (lowered c).toNat := by
  unfold lowered
  split
  · decide
  · split
    · next hdigit =>
      have hle : c.toNat ≤ '9'.toNat := by
        simp only [Bool.and_eq_true, decide_eq_true_eq] at hdigit
        exact hdigit.2
      have hall : ∀ k < 10, 0x2080 ≤ (Char.ofNat (0x2080 + k)).toNat := by decide
      refine hall _ ?_
      have hzero : '0'.toNat = 48 := rfl
      have hnine : '9'.toNat = 57 := rfl
      omega
    · decide

/-- An integer is written as decimal digits, after a minus sign if it is negative. -/
theorem toList_toString_int (i : Int) :
    ∃ sign n, (toString i).toList = sign ++ Nat.toDigits 10 n ∧ (sign = [] ∨ sign = ['-']) := by
  cases i with
  | ofNat n =>
    refine ⟨[], n, ?_, Or.inl rfl⟩
    show (Nat.repr n).toList = _
    simp
  | negSucc n =>
    refine ⟨['-'], n + 1, ?_, Or.inr rfl⟩
    show ("-" ++ Nat.repr (n + 1)).toList = _
    simp

theorem digits_ne_nil (n : Int) : (digits n).toList ≠ [] := by
  obtain ⟨sign, k, hdigits, _⟩ := toList_toString_int (Int64.ofInt n).toInt
  rw [digits, hdigits]
  exact List.append_ne_nil_of_right_ne_nil _ Nat.toDigits_ne_nil

/-- A number begins with a character that does not end a label. -/
theorem head?_subscript (m : Markup) (n : Nat) :
    ∃ c, (m.subscript n).toList.head? = some c ∧ c ≠ '\x7d' := by
  cases m with
  | qtree => exact ⟨'$', by simp [subscript], by decide⟩
  | plain =>
    obtain ⟨d, ds, hdigits⟩ := List.exists_cons_of_ne_nil (digits_ne_nil n)
    refine ⟨lowered d, by simp [subscript, subscriptDigits, hdigits], fun heq => ?_⟩
    have hle := toNat_lowered d
    rw [heq] at hle
    exact absurd hle (by decide)

end Markup

namespace Diagram

/-- A label with a number ends in another way than one without. -/
theorem diverge_label (m : Markup) (v : Value) (number : Nat) (x y : String) :
    Text.Diverge (valueLabel m v (some number) ++ x) (valueLabel m v none ++ "\x7d" ++ y) := by
  obtain ⟨c, hc, hne⟩ := m.head?_subscript number
  have hdiverge : Text.Diverge (m.subscript number ++ x) ("\x7d" ++ y) :=
    (Text.Diverge.of_heads hc rfl hne).append x y
  simpa [valueLabel, String.append_assoc] using hdiverge.prepend (m.strong (m.text v.type.name))

/-- A label begins in another way than a subtree. -/
theorem diverge_opening (m : Markup) (v : Value) (number : Nat) (x label : String) :
    Text.Diverge (valueLabel m v (some number) ++ x) (Markup.opening label) := by
  have hlabel : ∃ c, (m.strong (m.text v.type.name)).toList.head? = some c ∧ c ≠ '[' := by
    cases m with
    | plain => cases v.type <;> exact ⟨_, rfl, by decide⟩
    | qtree => exact ⟨'\\', by simp [Markup.strong], by decide⟩
  obtain ⟨c, hc, hne⟩ := hlabel
  have hopening : (Markup.opening label).toList.head? = some '[' := by simp [Markup.opening]
  have hdiverge := (Text.Diverge.of_heads hc hopening hne).append (m.subscript number ++ x) ""
  simpa [valueLabel, String.append_assoc] using hdiverge

/-! ## Values that are shown -/

mutual

/-- The values that a diagram shows, in the order in which they are written. -/
def values : Diagram → List Value
  | node _ _ _ parts | field _ parts => valuesAll parts
  | result _ drawing => values drawing
  | text _ | operator _ | message _ | missing => []
  | value v _ parts => v :: valuesAll parts
  | constant v | fault v _ _ | cycle v _ | reference v _ => [v]

/-- The values that diagrams show. -/
def valuesAll : List Diagram → List Value
  | [] => []
  | d :: ds => values d ++ valuesAll ds

end

@[simp] theorem valuesAll_append (ds ds' : List Diagram) :
    valuesAll (ds ++ ds') = valuesAll ds ++ valuesAll ds' := by
  induction ds with
  | nil => rfl
  | cons d ds ih => simp [valuesAll, ih]

@[simp] theorem linesAll_append (m : Markup) (depth : Nat) (ds ds' : List Diagram) :
    linesAll m depth (ds ++ ds') = linesAll m depth ds ++ linesAll m depth ds' := by
  induction ds with
  | nil => rfl
  | cons d ds ih => simp [linesAll, ih]

end Diagram

/-! ## Drawings in step -/

namespace Scene

/-- The same trace, in the same detail, on another heap. -/
def onHeap (s : Scene) (heap : Heap) : Scene := { s with heap }

/-- The heap of a scene and another one say the same about whether a value is to be numbered. -/
def Agrees (s : Scene) (heap : Heap) (v : Value) : Prop := s.isShared v = (s.onHeap heap).isShared v

variable {s : Scene} {heap : Heap}

/-- What is drawn for two heaps, with the values numbered then, goes in step: either it is the same and
the heaps agree about each value in it, or they do not agree about one and the texts diverge. -/
def Lockstep (s : Scene) (heap : Heap) (x y : List Diagram × List Value) : Prop :=
  (x = y ∧ ∀ v ∈ Diagram.valuesAll x.1, s.Agrees heap v) ∨
    (∃ v ∈ Diagram.valuesAll x.1, ¬ s.Agrees heap v) ∧
      ∀ m depth, Text.Diverge (Text.onNewLines (Diagram.linesAll m depth x.1))
        (Text.onNewLines (Diagram.linesAll m depth y.1))

/-- The same for single drawings. -/
def Lockstep₁ (s : Scene) (heap : Heap) (x y : Diagram × List Value) : Prop :=
  s.Lockstep heap ([x.1], x.2) ([y.1], y.2)

namespace Lockstep

variable {x y : List Diagram × List Value} {d d' : Diagram} {parts parts' : List Diagram}
  {seen seen' : List Value}

theorem same (h : ∀ v ∈ Diagram.valuesAll parts, s.Agrees heap v) :
    s.Lockstep heap (parts, seen) (parts, seen) := Or.inl ⟨rfl, h⟩

/-- What is drawn after what goes in step. -/
theorem append {draw draw' : Draw (List Diagram)} (h : s.Lockstep heap x y)
    (h' : ∀ seen, s.Lockstep heap (draw seen) (draw' seen)) :
    s.Lockstep heap (x.1 ++ (draw x.2).1, (draw x.2).2) (y.1 ++ (draw' y.2).1, (draw' y.2).2) := by
  rcases h with ⟨rfl, hx⟩ | ⟨⟨v, hv, hne⟩, hx⟩
  · rcases h' x.2 with ⟨heq, hrest⟩ | ⟨⟨v, hv, hne⟩, hrest⟩
    · rw [← heq]
      refine same fun v hv => ?_
      rw [Diagram.valuesAll_append] at hv
      exact (List.mem_append.mp hv).elim (hx v) (hrest v)
    · refine Or.inr ⟨⟨v, by simp [hv], hne⟩, fun m depth => ?_⟩
      simpa using (hrest m depth).prepend (Text.onNewLines (Diagram.linesAll m depth x.1))
  · refine Or.inr ⟨⟨v, by simp [hv], hne⟩, fun m depth => ?_⟩
    simpa using (hx m depth).append (Text.onNewLines (Diagram.linesAll m depth (draw x.2).1))
      (Text.onNewLines (Diagram.linesAll m depth (draw' y.2).1))

/-- What is drawn around what goes in step. -/
theorem enclose (own : List Value) (hown : ∀ v ∈ own, s.Agrees heap v)
    (hvalues : d.values = own ++ Diagram.valuesAll parts) (hsame : parts = parts' → d = d')
    (hlines : ∀ m depth, ∃ before depth' behind,
      d.lines m depth = before ++ Diagram.linesAll m depth' parts ++ behind ∧
        d'.lines m depth = before ++ Diagram.linesAll m depth' parts' ++ behind)
    (h : s.Lockstep heap (parts, seen) (parts', seen')) :
    s.Lockstep₁ heap (d, seen) (d', seen') := by
  have hall : Diagram.valuesAll [d] = own ++ Diagram.valuesAll parts := by
    simp [Diagram.valuesAll, hvalues]
  rcases h with ⟨heq, hparts⟩ | ⟨⟨v, hv, hne⟩, hdiverge⟩
  · obtain ⟨hparts', hseen⟩ := Prod.mk.inj heq
    obtain rfl := hsame hparts'
    obtain rfl : seen = seen' := hseen
    refine same fun v hv => ?_
    rw [hall] at hv
    exact (List.mem_append.mp hv).elim (hown v) (hparts v)
  · refine Or.inr ⟨⟨v, ?_, hne⟩, fun m depth => ?_⟩
    · show v ∈ Diagram.valuesAll [d]
      rw [hall]
      exact List.mem_append_right _ hv
    · obtain ⟨before, depth', behind, hd, hd'⟩ := hlines m depth
      have hbelow := ((hdiverge m depth').prepend (Text.onNewLines before)).append
        (Text.onNewLines behind) (Text.onNewLines behind)
      simpa [Diagram.linesAll, hd, hd', String.append_assoc] using hbelow

theorem field (name : String) (h : s.Lockstep heap (parts, seen) (parts', seen')) :
    s.Lockstep₁ heap (.field name parts, seen) (.field name parts', seen') := by
  refine h.enclose [] (by simp) (by simp [Diagram.values]) (fun heq => by rw [heq]) fun m depth => ?_
  exact ⟨[_], depth + 1, [_], by rw [Diagram.lines]; rfl, by rw [Diagram.lines]; rfl⟩

theorem node (n : Node) (entries exits : List Visit)
    (h : s.Lockstep heap (parts, seen) (parts', seen')) :
    s.Lockstep₁ heap (.node n entries exits parts, seen) (.node n entries exits parts', seen') := by
  refine h.enclose [] (by simp) (by simp [Diagram.values]) (fun heq => by rw [heq]) fun m depth => ?_
  exact ⟨[_], depth + 1, [_], by rw [Diagram.lines]; rfl, by rw [Diagram.lines]; rfl⟩

theorem value {v : Value} (hv : s.Agrees heap v) (number : Option Nat)
    (h : s.Lockstep heap (parts, seen) (parts', seen')) :
    s.Lockstep₁ heap (.value v number parts, seen) (.value v number parts', seen') := by
  refine h.enclose [v] (by simpa using hv) (by simp [Diagram.values]) (fun heq => by rw [heq])
    fun m depth => ?_
  exact ⟨[_], depth + 1, [_], by rw [Diagram.lines]; rfl, by rw [Diagram.lines]; rfl⟩

theorem result (step : Nat) (h : s.Lockstep₁ heap (d, seen) (d', seen')) :
    s.Lockstep₁ heap (.result step d, seen) (.result step d', seen') := by
  refine enclose [] (by simp) (by simp [Diagram.values, Diagram.valuesAll])
    (fun heq => congrArg (Diagram.result step) (List.singleton_inj.mp heq)) (fun m depth => ?_) h
  exact ⟨[Diagram.indent depth ++ m.edge ("Val " ++ toString step)], depth, [],
    by simp [Diagram.lines, Diagram.linesAll], by simp [Diagram.lines, Diagram.linesAll]⟩

theorem mapM {α : Type} {draw draw' : α → Draw Diagram} {l : List α}
    (h : ∀ a ∈ l, ∀ seen, s.Lockstep₁ heap (draw a seen) (draw' a seen)) (seen : List Value) :
    s.Lockstep heap (l.mapM draw seen) (l.mapM draw' seen) := by
  induction l generalizing seen with
  | nil => exact same (by simp [Diagram.valuesAll])
  | cons a l ih =>
    rw [List.mapM_cons, List.mapM_cons]
    exact (h a List.mem_cons_self seen).append (ih fun b hb => h b (List.mem_cons_of_mem _ hb))

/-- A single leaf, or a field with one, that both heaps draw. -/
theorem leaf (h : ∀ v ∈ d.values, s.Agrees heap v) (seen : List Value) :
    s.Lockstep₁ heap (d, seen) (d, seen) :=
  same (by simpa [Diagram.valuesAll] using h)

end Lockstep

/-! ## Where the heaps differ -/

theorem shown_drawKind (s : Scene) (draw : Job → Draw Diagram) (expanding : List NodeId) (v : Value)
    (number : Option Nat) (seen : List Value) :
    v ∈ (s.drawKind draw expanding v number seen).1.values := by
  cases v with
  | integer id n => exact List.mem_cons_self
  | boolean id b | null id | error id fault =>
    rw [drawKind]
    split <;> exact List.mem_cons_self
  | returned id inner => exact List.mem_cons_self
  | function id closure =>
    rw [drawKind]
    split <;> exact List.mem_cons_self

/-- What is drawn for a value shows it. -/
theorem shown_drawOnce (s : Scene) (draw : Job → Draw Diagram) (expanding : List NodeId) (v : Value)
    (seen : List Value) : v ∈ (s.drawOnce draw (.value expanding v) seen).1.values := by
  rw [drawOnce_value_apply]
  split
  · cases seen.findIdx? (·.is v) with
    | some number => exact List.mem_cons_self
    | none => exact s.shown_drawKind draw expanding v _ _
  · exact s.shown_drawKind draw expanding v _ _

/-- A value that may be numbered is written in brackets after its label. -/
theorem lines_drawKind (s : Scene) (draw : Job → Draw Diagram) (expanding : List NodeId) {v : Value}
    (hv : ∀ id b, v ≠ .boolean id b) (hv' : ∀ id, v ≠ .null id) (number : Option Nat)
    (seen : List Value) (m : Markup) (depth : Nat) :
    ∃ rest, Text.onNewLines ((s.drawKind draw expanding v number seen).1.lines m depth) =
      "\n" ++ Diagram.indent depth ++ Markup.opening (Diagram.valueLabel m v number) ++ rest := by
  have hfull : ∀ parts, ∃ rest,
      Text.onNewLines ((Diagram.value v number parts).lines m depth) =
        "\n" ++ Diagram.indent depth ++ Markup.opening (Diagram.valueLabel m v number) ++ rest := by
    intro parts
    rw [Diagram.lines, Text.onNewLines_cons]
    exact ⟨_, by simp only [String.append_assoc]; rfl⟩
  have hshort : ∀ content, ∃ rest,
      Text.onNewLines [Diagram.indent depth ++
          Diagram.onOneLine (Diagram.valueLabel m v number) content] =
        "\n" ++ Diagram.indent depth ++ Markup.opening (Diagram.valueLabel m v number) ++ rest := by
    intro content
    rw [Diagram.onOneLine, Text.onNewLines_cons]
    exact ⟨_, by simp only [String.append_assoc]; rfl⟩
  cases v with
  | integer id n => exact hfull _
  | boolean id b => exact absurd rfl (hv id b)
  | null id => exact absurd rfl (hv' id)
  | returned id inner => exact hfull _
  | error id fault =>
    rw [drawKind]
    split
    · exact hshort _
    · exact hfull _
  | function id closure =>
    rw [drawKind]
    split
    · exact hshort _
    · exact hfull _

/-- **A value that only one heap numbers** is written in different ways for the two. -/
theorem diverge_numbered {s' : Scene} (draw draw' : Job → Draw Diagram) (expanding : List NodeId)
    {v : Value} (hs : s.isShared v = true) (hs' : s'.isShared v = false) (seen : List Value)
    (m : Markup) (depth : Nat) :
    Text.Diverge
      (Text.onNewLines ((s.drawOnce draw (.value expanding v) seen).1.lines m depth))
      (Text.onNewLines ((s'.drawOnce draw' (.value expanding v) seen).1.lines m depth)) := by
  -- truth values and null are never numbered
  have hv : ∀ id b, v ≠ .boolean id b := by
    rintro id b rfl
    simp [isShared] at hs
  have hv' : ∀ id, v ≠ .null id := by
    rintro id rfl
    simp [isShared] at hs
  obtain ⟨rest', hplain⟩ := s'.lines_drawKind draw' expanding hv hv' none seen m depth
  rw [drawOnce_value_apply, drawOnce_value_apply, if_pos hs, hs', if_neg Bool.false_ne_true, hplain]
  have hopening : ∀ number x y, Text.Diverge
      ("\n" ++ Diagram.indent depth ++ Markup.opening (Diagram.valueLabel m v (some number)) ++ x)
      ("\n" ++ Diagram.indent depth ++ Markup.opening (Diagram.valueLabel m v none) ++ y) := by
    intro number x y
    have hlabel := (Diagram.diverge_label m v number ("\x7d" ++ x) y).prepend
      ("\n" ++ Diagram.indent depth ++ "[.\x7b")
    simpa [Markup.opening, String.append_assoc] using hlabel
  cases seen.findIdx? (·.is v) with
  | none =>
    obtain ⟨rest, hnumbered⟩ := s.lines_drawKind draw expanding hv hv' (some seen.length) (seen ++ [v])
      m depth
    simp only [hnumbered]
    exact hopening _ _ _
  | some number =>
    -- an integer is shown again, after its label in brackets; all else is the label alone
    have hreference : Text.Diverge
        ("\n" ++ Diagram.indent depth ++ Diagram.valueLabel m v (some number))
        ("\n" ++ Diagram.indent depth ++ Markup.opening (Diagram.valueLabel m v none) ++ rest') := by
      have hlabel := ((Diagram.diverge_opening m v number "" (Diagram.valueLabel m v none)).append ""
        rest').prepend ("\n" ++ Diagram.indent depth)
      simpa [String.append_assoc] using hlabel
    cases v with
    | integer id n =>
      have hshown := hopening number (" " ++ m.roof (toString n.toInt) ++ " ]") rest'
      simpa [Diagram.lines, Diagram.referenceText, Diagram.onOneLine, String.append_assoc] using hshown
    | _ => simpa [Diagram.lines, Diagram.referenceText, String.append_assoc] using hreference

/-! ## Drawings of one trace -/

namespace Lockstep

variable {draw draw' : Node → Draw Diagram} {n : Node}

/-- A field of a node, where its nodes are drawn in step. -/
theorem drawField (hdraw : ∀ child ∈ n.children, ∀ seen, s.Lockstep₁ heap (draw child seen) (draw' child seen))
    {field : String × Content} (hfield : field ∈ n.contents) (seen : List Value) :
    s.Lockstep₁ heap (drawFieldWith draw field seen) (drawFieldWith draw' field seen) := by
  obtain ⟨name, content⟩ := field
  have hnodes : ∀ child ∈ content.nodes, ∀ seen, s.Lockstep₁ heap (draw child seen) (draw' child seen) :=
    fun child hchild => hdraw child (Node.mem_children_of_contents hfield hchild)
  have hcontent : s.Lockstep heap (content.drawWith draw seen) (content.drawWith draw' seen) := by
    cases content with
    | leaf d =>
      rcases Node.leaf_of_contents hfield with ⟨content, rfl⟩ | ⟨spelling, rfl⟩ | rfl <;>
        exact leaf (by simp [Diagram.values]) seen
    | child child => exact hnodes child List.mem_cons_self seen
    | list nodes => exact mapM hnodes seen
  exact hcontent.field name

/-- What an exit leaves, where its value is drawn in step. -/
theorem drawExit {draw draw' : Value → Draw Diagram} {e : Event}
    (hdraw : ∀ v, e.value? = some v → ∀ seen, s.Lockstep₁ heap (draw v seen) (draw' v seen))
    (seen : List Value) : s.Lockstep₁ heap (e.drawWith draw seen) (e.drawWith draw' seen) := by
  rw [Event.drawWith, Event.drawWith]
  cases hvalue : e.value? with
  | none => exact leaf (by simp [Diagram.values]) seen
  | some v => exact result e.step (hdraw v hvalue seen)

end Lockstep

/-- A value of which both heaps say the same, where what it takes is drawn in step. -/
theorem lockstep_drawKind {draw draw' : Job → Draw Diagram} {expanding : List NodeId} {v : Value}
    (hv : s.Agrees heap v)
    (hdraw : ∀ inner, s.Takes (.value expanding v) inner → ∀ seen,
      s.Lockstep₁ heap (draw inner seen) (draw' inner seen))
    (number : Option Nat) (seen : List Value) :
    s.Lockstep₁ heap (s.drawKind draw expanding v number seen)
      ((s.onHeap heap).drawKind draw' expanding v number seen) := by
  have hleaf : ∀ d : Diagram, d.values = [v] → s.Lockstep₁ heap (d, seen) (d, seen) :=
    fun d hd => Lockstep.leaf (by simpa [hd] using hv) seen
  cases v with
  | integer id n => exact hleaf _ rfl
  | boolean id b | null id | error id fault =>
    show s.Lockstep₁ heap ((if s.verbosity.collapsesLeaves then _ else _ : Draw Diagram) seen)
      ((if s.verbosity.collapsesLeaves then _ else _ : Draw Diagram) seen)
    split <;> exact hleaf _ rfl
  | returned id inner =>
    have hfield : s.Lockstep₁ heap _ _ := (hdraw _ .unwrap seen).field "ReturnValue"
    exact hfield.value hv number
  | function id closure =>
    rw [drawKind, drawKind]
    split
    · exact hleaf _ rfl
    · next hnew =>
      have hnodes : ∀ n ∈ closure.parameters ++ [closure.body], ∀ seen, s.Lockstep₁ heap
          (draw (.node (closure.body.id :: expanding) n) seen)
          (draw' (.node (closure.body.id :: expanding) n) seen) :=
        fun n hn => hdraw _ (.expand hnew hn)
      have hnames := Lockstep.mapM (fun n hn => hnodes n (List.mem_append_left _ hn)) seen
      have hparts := (hnames.field "Parameters").append fun seen =>
        (hnodes _ (List.mem_append_right _ List.mem_cons_self) seen).field "Body"
      exact hparts.value hv number

/-- **Drawings of one trace go in step** on any two heaps. -/
theorem lockstep_draw (s : Scene) (heap : Heap) (job : Job) (seen : List Value) :
    s.Lockstep₁ heap (s.draw job seen) ((s.onHeap heap).draw job seen) := by
  induction job using (wellFounded_takes s).induction generalizing seen with
  | _ job ih =>
  rw [draw_eq_drawOnce, (s.onHeap heap).draw_eq_drawOnce]
  cases job with
  | node expanding n =>
    have hfields := Lockstep.mapM (l := n.contents) (fun field hfield => Lockstep.drawField
      (fun child hchild => ih _ (.field hchild)) hfield) seen
    have hall := hfields.append (Lockstep.mapM (l := s.exitsOf n) fun e he => Lockstep.drawExit
      fun v hv => ih _ (.exit he hv))
    exact hall.node n (s.entriesOf n) (s.exitVisits n)
  | value expanding v =>
    by_cases hv : s.Agrees heap v
    · have hkind := lockstep_drawKind hv ih
      rw [drawOnce_value_apply, drawOnce_value_apply, ← hv]
      split
      · cases seen.findIdx? (·.is v) with
        | some number => exact Lockstep.leaf (by simpa [Diagram.values] using hv) seen
        | none => exact hkind _ _
      · exact hkind _ _
    · -- here the heaps differ for the first time
      refine Or.inr ⟨⟨v, ?_, hv⟩, fun m depth => ?_⟩
      · simpa [Diagram.valuesAll] using s.shown_drawOnce s.draw expanding v seen
      · simp only [Diagram.linesAll, List.append_nil]
        unfold Agrees at hv
        cases hs : s.isShared v with
        | true =>
          have hs' : (s.onHeap heap).isShared v = false := by simpa [hs] using hv
          exact diverge_numbered _ _ expanding hs hs' seen m depth
        | false =>
          have hs' : (s.onHeap heap).isShared v = true := by simpa [hs] using hv
          exact (diverge_numbered _ _ expanding hs' hs seen m depth).symm

end Scene

end TraceTree

import Mathlib
import TraceTree.Proofs.Diagram.Moment
import TraceTree.Proofs.Diagram.Sharing

set_option autoImplicit false

/-! # Numbers of values

A value that is used in several places gets the next number where it appears for the first time, and
keeps it. The list of the values numbered so far is threaded through the whole drawing, down into
values that are in the middle of being drawn; `Scene.Numbers` is what happens to it from one appearance
to the next, and all drawing keeps to it (`Scene.numbered_draw`). So the number at an appearance is the
position of its value in the list that is there at the end (`Scene.Numbers.number_eq`), whatever is
drawn around it or inside it.

Nothing is asked of the trace and the heap here: values are told apart as drawing does, by
`Value.is`. -/

namespace TraceTree

/-- A truth value or null. -/
def Value.isConstant : Value → Bool
  | boolean _ _ | null _ => true
  | _ => false

namespace Markup

/-- A digit that was lowered, on the line again. -/
def raised (c : Char) : Char := Char.ofNat (c.toNat - 0x2080 + 48)

theorem raised_lowered {c : Char} (h : c.isDigit = true) : raised (lowered c) = c := by
  have hall : ∀ k < 10, raised (lowered (Char.ofNat (48 + k))) = Char.ofNat (48 + k) := by decide
  have hbounds : 48 ≤ c.toNat ∧ c.toNat ≤ 57 := by
    simpa [Char.isDigit, UInt32.le_iff_toNat_le] using h
  have hc : c = Char.ofNat (48 + (c.toNat - 48)) := by
    rw [Nat.add_sub_cancel' hbounds.1, Char.ofNat_toNat]
  rw [hc]
  exact hall _ (by omega)

theorem toList_digits_natCast {n : Nat} (h : n < 2 ^ 63) :
    (digits n).toList = Nat.toDigits 10 n := by
  have hvalue : (Int64.ofInt n).toInt = n := Int64.toInt_ofInt_of_le (by omega) (by omega)
  rw [digits, hvalue]
  show (Nat.repr n).toList = _
  simp

/-- The digits below the line are those of the number. -/
theorem raised_subscriptDigits {n : Nat} (h : n < 2 ^ 63) :
    (subscriptDigits n).toList.map raised = Nat.toDigits 10 n := by
  rw [subscriptDigits, String.toList_ofList, toList_digits_natCast h, List.map_map]
  refine (List.map_congr_left fun c hc => ?_).trans (List.map_id _)
  have hdigit := Nat.isDigit_of_mem_toDigits (by decide) (by decide) hc
  rw [Function.comp_apply, raised_lowered hdigit, id]

/-- **Numbers are told apart by how they are written,** as far as 64 bits hold them. -/
theorem subscript_inj (m : Markup) {i j : Nat} (hi : i < 2 ^ 63) (hj : j < 2 ^ 63) :
    m.subscript i = m.subscript j ↔ i = j := by
  refine ⟨fun h => ?_, fun h => by rw [h]⟩
  cases m with
  | plain =>
    have hdigits : Nat.toDigits 10 i = Nat.toDigits 10 j := by
      rw [← raised_subscriptDigits hi, ← raised_subscriptDigits hj]
      exact congrArg (fun t : String => t.toList.map raised) h
    rw [← @Nat.ofDigitChars_ten_toDigits i, hdigits, Nat.ofDigitChars_ten_toDigits]
  | qtree =>
    simpa [subscript, String.append_left_inj, String.append_right_inj, Nat.repr_inj] using h

end Markup

namespace Diagram

/-- The number that a diagram of a value has. -/
def number? : Diagram → Option Nat
  | value _ number _ | fault _ number _ | cycle _ number => number
  | reference _ number => some number
  | _ => none

/-- How a value is written where it appears: its label with its number comes first, in the bracket of
a subtree unless it is a bare reference. A single word has no number. -/
def BeginsWith (m : Markup) (v : Value) (number : Option Nat) (t : String) : Prop :=
  t = valueLabel m v number ∨ (∃ rest, t = Markup.opening (valueLabel m v number) ++ rest) ∨
    number = none ∧ t = m.strong (constantWord v)

/-- **An appearance is written with its number,** after the blanks for its depth. -/
theorem exists_firstLine (m : Markup) {a : Appearance} {v : Value}
    (hshown : a.drawing.shown? = some v) :
    ∃ t, firstLine m a = [indent a.depth ++ t] ∧ BeginsWith m v a.drawing.number? t := by
  obtain ⟨depth, around, d⟩ := a
  have hopened : ∀ (number : Option Nat) (content : String),
      BeginsWith m v number (onOneLine (valueLabel m v number) content) := by
    intro number content
    exact Or.inr (Or.inl ⟨" " ++ content ++ " ]", by simp only [onOneLine, String.append_assoc]⟩)
  cases d with
  | value u number parts =>
    obtain rfl : u = v := Option.some.inj hshown
    refine ⟨_, by rw [firstLine, lines]; rfl, Or.inr (Or.inl ⟨"", ?_⟩)⟩
    exact (String.append_empty).symm
  | constant u =>
    obtain rfl : u = v := Option.some.inj hshown
    exact ⟨_, by rw [firstLine, lines]; rfl, Or.inr (Or.inr ⟨rfl, rfl⟩)⟩
  | fault u number content =>
    obtain rfl : u = v := Option.some.inj hshown
    exact ⟨_, by rw [firstLine, lines]; rfl, hopened number _⟩
  | cycle u number =>
    obtain rfl : u = v := Option.some.inj hshown
    exact ⟨_, by rw [firstLine, lines]; rfl, hopened number _⟩
  | reference u number =>
    obtain rfl : u = v := Option.some.inj hshown
    refine ⟨_, by rw [firstLine, lines]; rfl, ?_⟩
    cases u with
    | integer id n => exact hopened (some number) _
    | _ => exact Or.inl rfl
  | _ => cases hshown

end Diagram

namespace Scene

variable {s : Scene}

theorem isShared_iff {v : Value} : s.isShared v = true ↔
    s.verbosity.sharesValues = true ∧ v.isConstant = false ∧ 1 < s.uses v := by
  cases v <;> simp [isShared, Value.isConstant]

/-! ## From one appearance to the next -/

/-- How values are numbered: `seen` are those numbered before the appearances, `after` those numbered
then. A value that is used in several places gets the next number where it is not yet among those
numbered, and otherwise has its position among them. -/
inductive Numbers (s : Scene) : List Value → List Appearance → List Value → Prop where
  | nil {seen : List Value} : Numbers s seen [] seen
  | unshared {seen after : List Value} {a : Appearance} {as : List Appearance} {v : Value}
      (shown : a.drawing.shown? = some v) (unshared : s.isShared v = false)
      (number : a.drawing.number? = none) (rest : Numbers s seen as after) :
      Numbers s seen (a :: as) after
  | first {seen after : List Value} {a : Appearance} {as : List Appearance} {v : Value}
      (shown : a.drawing.shown? = some v) (shared : s.isShared v = true)
      (new : seen.findIdx? (·.is v) = none) (number : a.drawing.number? = some seen.length)
      (rest : Numbers s (seen ++ [v]) as after) : Numbers s seen (a :: as) after
  | again {seen after : List Value} {a : Appearance} {as : List Appearance} {v : Value}
      {position : Nat} (shown : a.drawing.shown? = some v) (shared : s.isShared v = true)
      (known : seen.findIdx? (·.is v) = some position)
      (number : a.drawing.number? = some position) (rest : Numbers s seen as after) :
      Numbers s seen (a :: as) after

/-- The numbers below a number are all different. -/
theorem eraseDups_range (n : Nat) : (List.range n).eraseDups = List.range n := by
  induction n with
  | zero => rfl
  | succ n ih =>
    rw [List.range_succ, List.eraseDups_append, ih]
    simp [List.removeAll, List.eraseDups_cons]

namespace Numbers

variable {seen seen' after : List Value} {as bs : List Appearance}

theorem append (h : s.Numbers seen as seen') (h' : s.Numbers seen' bs after) :
    s.Numbers seen (as ++ bs) after := by
  induction h with
  | nil => exact h'
  | unshared shown unshared number _ ih => exact .unshared shown unshared number (ih h')
  | first shown shared new number _ ih => exact .first shown shared new number (ih h')
  | again shown shared known number _ ih => exact .again shown shared known number (ih h')

/-- **A value keeps its number.** -/
theorem position_mono (h : s.Numbers seen as after) {v : Value} {position : Nat}
    (hseen : seen.findIdx? (·.is v) = some position) :
    after.findIdx? (·.is v) = some position := by
  induction h with
  | nil => exact hseen
  | unshared _ _ _ _ ih | again _ _ _ _ _ ih => exact ih hseen
  | first _ _ _ _ _ ih =>
    refine ih ?_
    rw [List.findIdx?_append, hseen, Option.some_or]

/-- **The number at an appearance is the position of its value** among all values that are numbered. -/
theorem number_eq (h : s.Numbers seen as after) {a : Appearance} (ha : a ∈ as) :
    ∃ v, a.drawing.shown? = some v ∧
      (a.drawing.number?.isSome = true ↔ s.isShared v = true) ∧
      ∀ i, a.drawing.number? = some i → after.findIdx? (·.is v) = some i := by
  induction h with
  | nil => exact absurd ha List.not_mem_nil
  | unshared shown unshared number rest ih =>
    rcases List.mem_cons.mp ha with rfl | ha
    · exact ⟨_, shown, by simp [number, unshared], by simp [number]⟩
    · exact ih ha
  | @first seen _ _ _ v shown shared new number rest ih =>
    rcases List.mem_cons.mp ha with rfl | ha
    · have hlast : (seen ++ [v]).findIdx? (·.is v) = some seen.length := by
        rw [List.findIdx?_append, new]
        simp [Value.is]
      refine ⟨v, shown, by simp [number, shared], fun i hi => ?_⟩
      rw [← Option.some.inj (number.symm.trans hi)]
      exact rest.position_mono hlast
    · exact ih ha
  | again shown shared known number rest ih =>
    rcases List.mem_cons.mp ha with rfl | ha
    · refine ⟨_, shown, by simp [number, shared], fun i hi => ?_⟩
      rw [← Option.some.inj (number.symm.trans hi)]
      exact rest.position_mono known
    · exact ih ha

/-- **The numbers come in order.** After those given before, each new one is the next. -/
theorem eraseDups_numbers (h : s.Numbers seen as after) :
    (List.range seen.length ++ as.filterMap (·.drawing.number?)).eraseDups =
      List.range after.length := by
  induction h with
  | nil => rw [List.filterMap_nil, List.append_nil, eraseDups_range]
  | unshared _ _ number _ ih => simpa only [List.filterMap_cons, number] using ih
  | first _ _ _ number _ ih =>
    rw [List.length_append, List.length_singleton, List.range_succ, List.append_assoc] at ih
    simpa only [List.filterMap_cons, number, List.singleton_append] using ih
  | @again seen _ _ _ _ position _ _ known number _ ih =>
    have hlt : position < seen.length := (List.findIdx?_eq_some_iff_getElem.mp known).1
    rw [List.eraseDups_append] at ih
    rw [← ih, List.eraseDups_append]
    simp [number, List.removeAll, hlt]

end Numbers

/-! ## Drawing keeps to the numbering -/

/-- What is drawn with the values `seen` numbered before, and those numbered then. -/
def Numbered (s : Scene) (seen : List Value) (x : List Diagram × List Value) : Prop :=
  ∀ depth around, s.Numbers seen (Diagram.appearancesAll depth around x.1) x.2

/-- The same for a single drawing. -/
def Numbered₁ (s : Scene) (seen : List Value) (x : Diagram × List Value) : Prop :=
  s.Numbered seen ([x.1], x.2)

namespace Numbered

variable {seen after : List Value} {d : Diagram} {parts : List Diagram}

/-- What is drawn after what is numbered. -/
theorem append {x : List Diagram × List Value} {draw : Draw (List Diagram)} (h : s.Numbered seen x)
    (h' : ∀ seen, s.Numbered seen (draw seen)) :
    s.Numbered seen (x.1 ++ (draw x.2).1, (draw x.2).2) := by
  intro depth around
  rw [Diagram.appearancesAll_append]
  exact (h depth around).append (h' x.2 depth around)

theorem leaf (h : ∀ depth around, d.appearances depth around = []) :
    s.Numbered₁ seen (d, seen) := by
  intro depth around
  rw [Diagram.appearancesAll_singleton, h]
  exact .nil

theorem field (h : s.Numbered seen (parts, after)) (name : String) :
    s.Numbered₁ seen (.field name parts, after) := by
  intro depth around
  rw [Diagram.appearancesAll_singleton, Diagram.appearances]
  exact h (depth + 1) around

theorem node (h : s.Numbered seen (parts, after)) (n : Node) (entries exits : List Visit) :
    s.Numbered₁ seen (.node n entries exits parts, after) := by
  intro depth around
  rw [Diagram.appearancesAll_singleton, Diagram.appearances]
  exact h (depth + 1) around

theorem result (h : s.Numbered₁ seen (d, after)) (step : Nat) :
    s.Numbered₁ seen (.result step d, after) := by
  intro depth around
  rw [Diagram.appearancesAll_singleton, Diagram.appearances, ← Diagram.appearancesAll_singleton]
  exact h depth around

theorem mapM {α : Type} {draw : α → Draw Diagram} {l : List α}
    (h : ∀ a ∈ l, ∀ seen, s.Numbered₁ seen (draw a seen)) (seen : List Value) :
    s.Numbered seen (l.mapM draw seen) := by
  induction l generalizing seen with
  | nil => exact fun _ _ => .nil
  | cons a l ih =>
    rw [List.mapM_cons]
    exact (h a List.mem_cons_self seen).append (ih fun b hb => h b (List.mem_cons_of_mem _ hb))

/-- A field of a node, where its nodes are numbered. -/
theorem drawField {draw : Node → Draw Diagram} {n : Node}
    (hdraw : ∀ child ∈ n.children, ∀ seen, s.Numbered₁ seen (draw child seen))
    {field : String × Content} (hfield : field ∈ n.contents) (seen : List Value) :
    s.Numbered₁ seen (drawFieldWith draw field seen) := by
  obtain ⟨name, content⟩ := field
  have hnodes : ∀ child ∈ content.nodes, ∀ seen, s.Numbered₁ seen (draw child seen) :=
    fun child hchild => hdraw child (Node.mem_children_of_contents hfield hchild)
  have hcontent : s.Numbered seen (content.drawWith draw seen) := by
    cases content with
    | leaf d => exact leaf (Node.appearances_leaf hfield)
    | child child => exact hnodes child List.mem_cons_self seen
    | list nodes => exact mapM hnodes seen
  exact hcontent.field name

/-- What an exit leaves, where its value is numbered. -/
theorem drawExit {draw : Value → Draw Diagram} {e : Event}
    (hdraw : ∀ v, e.value? = some v → ∀ seen, s.Numbered₁ seen (draw v seen)) (seen : List Value) :
    s.Numbered₁ seen (e.drawWith draw seen) := by
  rw [Event.drawWith]
  cases hvalue : e.value? with
  | none => exact leaf fun _ _ => rfl
  | some v => exact result (hdraw v hvalue seen) e.step

end Numbered

/-- A value is drawn with a number: it appears first, and then what is drawn of it. -/
structure DrawnWith (s : Scene) (v : Value) (number : Option Nat) (seen : List Value)
    (x : Diagram × List Value) : Prop where
  shown : x.1.shown? = some v
  number_eq : x.1.number? = number
  inner : ∀ depth around, ∃ as, x.1.appearances depth around = ⟨depth, around, x.1⟩ :: as ∧
    s.Numbers seen as x.2

/-- A value in full is drawn with a number, if its parts are numbered. -/
theorem Numbered.value {v : Value} {seen after : List Value} {parts : List Diagram}
    (h : s.Numbered seen (parts, after)) (number : Option Nat) :
    s.DrawnWith v number seen (.value v number parts, after) :=
  ⟨rfl, rfl, fun depth around => ⟨_, rfl, h (depth + 1) (v :: around)⟩⟩

/-- **A value drawn by its kind has the number it is drawn with,** where what it takes is numbered.
Truth values and null have none. -/
theorem drawnWith_drawKind {draw : Job → Draw Diagram} {expanding : List NodeId} {v : Value}
    (hdraw : ∀ inner, s.Takes (.value expanding v) inner → ∀ seen, s.Numbered₁ seen (draw inner seen))
    (number : Option Nat) (hnumber : v.isConstant = true → number = none) (seen : List Value) :
    s.DrawnWith v number seen (s.drawKind draw expanding v number seen) := by
  have hword : ∀ (name : String) {d : Diagram}, (∀ depth around, d.appearances depth around = []) →
      s.Numbered seen ([.field name [d]], seen) :=
    fun name _ hd => (Numbered.leaf hd).field name
  have hleaf : ∀ {d : Diagram}, d.shown? = some v → d.number? = number →
      (∀ depth around, d.appearances depth around = [⟨depth, around, d⟩]) →
        s.DrawnWith v number seen (d, seen) :=
    fun hshown hd happears => ⟨hshown, hd, fun depth around => ⟨[], happears depth around, .nil⟩⟩
  cases v with
  | integer id n => exact (hword "Value" fun _ _ => rfl).value number
  | boolean id b | null id =>
    rw [drawKind]
    split
    · exact hleaf rfl (hnumber rfl).symm fun _ _ => rfl
    · exact (hword "Value" fun _ _ => rfl).value number
  | error id fault =>
    rw [drawKind]
    split
    · exact hleaf rfl rfl fun _ _ => rfl
    · exact (hword "Message" fun _ _ => rfl).value number
  | returned id inner =>
    have hfield : s.Numbered₁ seen _ := (hdraw _ .unwrap seen).field "ReturnValue"
    exact hfield.value number
  | function id closure =>
    rw [drawKind]
    split
    · exact hleaf rfl rfl fun _ _ => rfl
    · next hnew =>
      have hnodes : ∀ n ∈ closure.parameters ++ [closure.body], ∀ seen,
          s.Numbered₁ seen (draw (.node (closure.body.id :: expanding) n) seen) :=
        fun n hn => hdraw _ (.expand hnew hn)
      have hnames := Numbered.mapM (fun n hn => hnodes n (List.mem_append_left _ hn)) seen
      have hparts := (hnames.field "Parameters").append fun seen =>
        (hnodes _ (List.mem_append_right _ List.mem_cons_self) seen).field "Body"
      exact hparts.value number

/-- **All drawing keeps to the numbering.** -/
theorem numbered_draw (s : Scene) (job : Job) (seen : List Value) :
    s.Numbered₁ seen (s.draw job seen) := by
  induction job using (wellFounded_takes s).induction generalizing seen with
  | _ job ih =>
  rw [draw_eq_drawOnce]
  cases job with
  | node expanding n =>
    have hfields := Numbered.mapM (l := n.contents) (fun field hfield => Numbered.drawField
      (fun child hchild => ih _ (.field hchild)) hfield) seen
    have hall := hfields.append (Numbered.mapM (l := s.exitsOf n) fun e he => Numbered.drawExit
      fun v hv => ih _ (.exit he hv))
    exact hall.node n (s.entriesOf n) (s.exitVisits n)
  | value expanding v =>
    intro depth around
    rw [Diagram.appearancesAll_singleton, drawOnce_value_apply]
    by_cases hshared : s.isShared v = true
    · have hconstant := (isShared_iff.mp hshared).2.1
      rw [if_pos hshared]
      cases hseen : seen.findIdx? (·.is v) with
      | some position => exact .again rfl hshared hseen rfl .nil
      | none =>
        obtain ⟨hshown, hnumber, hinner⟩ := drawnWith_drawKind ih
          (some seen.length) (by simp [hconstant]) (seen ++ [v])
        obtain ⟨as, happears, hnumbers⟩ := hinner depth around
        rw [happears]
        exact .first hshown hshared hseen hnumber hnumbers
    · obtain ⟨hshown, hnumber, hinner⟩ := drawnWith_drawKind ih none (fun _ => rfl) seen
      obtain ⟨as, happears, hnumbers⟩ := hinner depth around
      rw [if_neg hshared, happears]
      exact .unshared hshown (Bool.eq_false_iff.mpr hshared) hnumber hnumbers

/-! ## The tree of an evaluation -/

/-- Where values appear in the tree of an evaluation. -/
def appearances (s : Scene) : List Appearance :=
  match s.diagram? with
  | some d => d.appearances 0 []
  | none => []

/-- The numbers at appearances number the values faithfully. -/
structure NumbersFaithfully (s : Scene) (as : List Appearance) : Prop where
  /-- The numbers are those below some number, in the order in which they first appear. -/
  inOrder : ∃ k, (as.filterMap (·.drawing.number?)).eraseDups = List.range k
  /-- A value has a number wherever it appears just if it is used in several places and is neither a
  truth value nor null, where values are shared. -/
  carried : ∀ a ∈ as, ∃ v, a.drawing.shown? = some v ∧
    (a.drawing.number?.isSome = true ↔
      s.verbosity.sharesValues = true ∧ v.isConstant = false ∧ 1 < s.uses v)
  /-- Two numbers are the same just if they are those of one value. -/
  identifies : ∀ a ∈ as, ∀ b ∈ as, ∀ v w i j, a.drawing.shown? = some v →
    b.drawing.shown? = some w → a.drawing.number? = some i → b.drawing.number? = some j →
      (i = j ↔ v.is w = true)

theorem Numbers.faithful {as : List Appearance} {after : List Value} (h : s.Numbers [] as after) :
    s.NumbersFaithfully as where
  inOrder := ⟨after.length, h.eraseDups_numbers⟩
  carried := by
    intro a ha
    obtain ⟨v, hshown, hshared, _⟩ := h.number_eq ha
    exact ⟨v, hshown, hshared.trans isShared_iff⟩
  identifies := by
    intro a ha b hb v w i j hv hw hi hj
    obtain ⟨v', hv', _, hnumber⟩ := h.number_eq ha
    obtain ⟨w', hw', _, hnumber'⟩ := h.number_eq hb
    obtain rfl := Option.some.inj (hv.symm.trans hv')
    obtain rfl := Option.some.inj (hw.symm.trans hw')
    have hi := hnumber i hi
    have hj := hnumber' j hj
    constructor
    · -- the value at this position is both
      rintro rfl
      obtain ⟨_, hisv, _⟩ := List.findIdx?_eq_some_iff_getElem.mp hi
      obtain ⟨_, hisw, _⟩ := List.findIdx?_eq_some_iff_getElem.mp hj
      simp only [Value.is, beq_iff_eq] at hisv hisw ⊢
      exact hisv.symm.trans hisw
    · intro his
      have hsame : (fun u : Value => u.is v) = fun u => u.is w := by
        funext u
        rw [Value.is, Value.is, eq_of_beq his]
      rw [hsame] at hi
      exact Option.some.inj (hi.symm.trans hj)

/-- **The numbers of values are a faithful numbering,** for every trace and every heap, and however
deep values are drawn inside one another. In the tree of an evaluation the numbers are those below
some number, in the order in which they first appear; two appearances have the same number just if
they show one value; and exactly the values that are used in several places have one wherever they
appear, truth values and null apart, and only where values are shared. In each markup the appearances
are written in their order, each with its number, and the number can be read off. -/
theorem numbering_faithful (s : Scene) :
    s.NumbersFaithfully s.appearances ∧
      ∀ m : Markup, (∃ lines, s.evaluationTree m = m.tree ("\n".intercalate lines) ∧
          (s.appearances.flatMap (Diagram.firstLine m)).Sublist lines) ∧
        (∀ a ∈ s.appearances, ∃ v t, a.drawing.shown? = some v ∧
          Diagram.firstLine m a = [Diagram.indent a.depth ++ t] ∧
            Diagram.BeginsWith m v a.drawing.number? t) ∧
        ∀ i j, i < 2 ^ 63 → j < 2 ^ 63 → (m.subscript i = m.subscript j ↔ i = j) := by
  have hnumbers : ∃ after, s.Numbers [] s.appearances after := by
    rw [appearances, diagram?]
    cases s.trace.root? with
    | none => exact ⟨[], .nil⟩
    | some root =>
      have hdrawn := s.numbered_draw (.node [] root) [] 0 []
      rw [Diagram.appearancesAll_singleton, ← drawNode_root] at hdrawn
      exact ⟨_, hdrawn⟩
  obtain ⟨after, hnumbers⟩ := hnumbers
  refine ⟨hnumbers.faithful, fun m => ⟨?_, fun a ha => ?_, fun i j => m.subscript_inj⟩⟩
  · rw [evaluationTree, appearances]
    cases s.diagram? with
    | none => exact ⟨[m.missing], by simp, List.nil_sublist _⟩
    | some d => exact ⟨d.lines m 0, rfl, Diagram.firstLines_sublist_lines m 0 [] d⟩
  · obtain ⟨v, hshown, _⟩ := hnumbers.number_eq ha
    obtain ⟨t, hline, hbegins⟩ := Diagram.exists_firstLine m hshown
    exact ⟨v, t, hshown, hline, hbegins⟩

set_option maxRecDepth 100000 in
/-- Functions are drawn inside one another here, and five values have numbers. -/
theorem numbering_faithful_nestedWraps :
    (nestedWrapsScene.appearances.filterMap (·.drawing.number?)).eraseDups = List.range 5 ∧
      nestedWrapsScene.NumbersFaithfully nestedWrapsScene.appearances :=
  ⟨by cbv, (numbering_faithful nestedWrapsScene).1⟩

end Scene

end TraceTree

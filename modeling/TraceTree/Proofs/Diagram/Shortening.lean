import TraceTree.Proofs.Diagram.Escaping
import TraceTree.Proofs.Diagram.Recursion
import TraceTree.Proofs.Diagram.Writing
import TraceTree.Proofs.Syntax.Canonical
import TraceTree.Proofs.Text.Cutting

set_option autoImplicit false

/-! # Names in the leaves of faults

The leaf of a fault shortens the names of types wherever they occur in the message, and the message of
a name that is not bound ends in that name. So a type name inside the name is shortened with it: the
leaf shows the name if and only if no type name occurs in it, and two names have the same leaf if they
are the same once they are shortened (`Markup.faultLeaf_unbound`). That a shortened name is not what
it was is told by counting a letter that each shortening drops. -/

namespace TraceTree

open Text (OccursIn)

namespace Text

/-! ## Names of types -/

/-- A text with the names of types in it shortened. -/
def shortenTypes (s : String) : String :=
  replaceAll "BOOLEAN" "BOOL" (replaceAll "INTEGER" "INT" s)

/-- A text in which no name of a type that is shortened occurs. -/
def NamesNoType (s : String) : Prop :=
  ¬ OccursIn ValueType.integer.name s ∧ ¬ OccursIn ValueType.boolean.name s

theorem occursIn_iff_toList {part whole : String} :
    OccursIn part whole ↔ part.toList <:+: whole.toList := by
  constructor
  · rintro ⟨before, after, rfl⟩
    exact ⟨before.toList, after.toList, by simp⟩
  · rintro ⟨before, after, h⟩
    refine ⟨String.ofList before, String.ofList after, ?_⟩
    rw [← String.toList_inj]
    simp [h]

/-- Where a word cannot begin, the text is kept. -/
theorem replaceAll_append {word new before : String} {c : Char} {rest : List Char}
    (hword : word.toList = c :: rest) (h : c ∉ before.toList) (s : String) :
    replaceAll word new (before ++ s) = before ++ replaceAll word new s := by
  rw [← String.toList_inj]
  simp only [replaceAll, String.toList_append, String.toList_ofList, hword]
  exact replaceFrom_append_of_not_mem h s.toList

theorem replaceAll_eq_self {word new s : String} (h : ¬ OccursIn word s) :
    replaceAll word new s = s := by
  rw [occursIn_iff_toList] at h
  rw [replaceAll, replaceFrom_eq_self h, String.ofList_toList]

/-- A letter that a word has and its replacement lacks gets lost where the word occurs. -/
theorem count_replaceAll (word new s : String) {c : Char}
    (h : new.toList.count c < word.toList.count c) :
    (replaceAll word new s).toList.count c ≤ s.toList.count c ∧
      (OccursIn word s → (replaceAll word new s).toList.count c < s.toList.count c) := by
  rw [replaceAll, String.toList_ofList, occursIn_iff_toList]
  exact count_replaceFrom h s.toList

/-- **A name of a type in a text is lost when it is shortened,** and with it a letter `E`. -/
theorem count_shortenTypes_lt {s : String} (h : ¬ NamesNoType s) :
    (shortenTypes s).toList.count 'E' < s.toList.count 'E' := by
  have hinteger : "INT".toList.count 'E' < "INTEGER".toList.count 'E' := by decide
  have hboolean : "BOOL".toList.count 'E' < "BOOLEAN".toList.count 'E' := by decide
  obtain ⟨hint, hlost⟩ := count_replaceAll "INTEGER" "INT" s hinteger
  obtain ⟨hbool, hlost'⟩ := count_replaceAll "BOOLEAN" "BOOL" (replaceAll "INTEGER" "INT" s) hboolean
  rw [shortenTypes]
  by_cases hoccurs : OccursIn "INTEGER" s
  · exact Nat.lt_of_le_of_lt hbool (hlost hoccurs)
  · have hoccurs' : OccursIn "BOOLEAN" s := by
      by_contra hno
      exact h ⟨hoccurs, hno⟩
    rw [replaceAll_eq_self hoccurs] at hlost' ⊢
    exact hlost' hoccurs'

theorem shortenTypes_eq_self {s : String} (h : NamesNoType s) : shortenTypes s = s := by
  rw [shortenTypes, show replaceAll "INTEGER" "INT" s = s from replaceAll_eq_self h.1]
  exact replaceAll_eq_self h.2

end Text

/-! ## Names -/

/-- No character of a name is a blank. -/
theorem isBlank_of_isNameChar {c : Char} (h : isNameChar c = true) : Text.isBlank c = false := by
  have hrange : 48 ≤ c.toNat ∧ c.toNat ≤ 122 := by
    simp [isNameChar, isNameStart, isDigit, Char.le_def, UInt32.le_iff_toNat_le] at h
    rcases h with ((h | h) | rfl) | h
    · omega
    · omega
    · decide
    · omega
  simp [Text.isBlank]
  omega

theorem IsName.isNameChar_shortenTypes {name : String} (h : IsName name.toList) :
    ∀ c ∈ (Text.shortenTypes name).toList, isNameChar c = true := by
  intro c hc
  have hint : ∀ d ∈ "INT".toList, isNameChar d = true := List.all_eq_true.mp (by decide)
  have hbool : ∀ d ∈ "BOOL".toList, isNameChar d = true := List.all_eq_true.mp (by decide)
  rw [Text.shortenTypes, Text.replaceAll, String.toList_ofList] at hc
  rcases Text.mem_replaceFrom hc with hc | hc
  · exact hbool c hc
  · rw [Text.replaceAll, String.toList_ofList] at hc
    rcases Text.mem_replaceFrom hc with hc | hc
    · exact hint c hc
    · exact h.chars c hc

namespace Markup

/-! ## Leaves -/

/-- The leaf that is drawn for a fault. -/
def faultLeaf (m : Markup) (fault : Fault) : String := m.roof (m.messageLeaf fault.message)

/-- Up to the name the message is kept, and the name is shortened. -/
theorem shortenTypes_unbound (name : String) :
    Text.shortenTypes (Fault.unboundIdentifier name).message =
      "identifier not found: " ++ Text.shortenTypes name := by
  have hint : 'I' ∉ "identifier not found: ".toList := by decide
  have hbool : 'B' ∉ "identifier not found: ".toList := by decide
  calc Text.shortenTypes ("identifier not found: " ++ name)
      = Text.replaceAll "BOOLEAN" "BOOL"
          ("identifier not found: " ++ Text.replaceAll "INTEGER" "INT" name) :=
        congrArg (Text.replaceAll "BOOLEAN" "BOOL") (Text.replaceAll_append rfl hint name)
    _ = "identifier not found: " ++ Text.shortenTypes name := Text.replaceAll_append rfl hbool _

/-- The break after the fixed words is the only one, and the blank behind it is cut off. -/
theorem splitAt_unbound {name : String} (h : ∀ c ∈ name.toList, isNameChar c = true) :
    (Text.splitAt ':' ("identifier not found: " ++ name)).map Text.trim =
      ["identifier not found", name] := by
  have hcolon : ':' ∉ "identifier not found".toList := by decide
  have hbefore : ∀ c ∈ "identifier not found".toList, (c == ':') = false :=
    fun c hc => beq_false_of_ne fun heq => hcolon (heq ▸ hc)
  have hafter : ∀ c ∈ ' ' :: name.toList, (c == ':') = false := by
    intro c hc
    rcases List.mem_cons.mp hc with rfl | hc
    · rfl
    · exact beq_false_of_ne (ne_of_isNameChar (h c hc) rfl)
  have hsplit : Text.splitAll (· == ':') ("identifier not found: " ++ name).toList =
      ["identifier not found".toList, ' ' :: name.toList] := by
    have hwords : "identifier not found: ".toList = "identifier not found".toList ++ [':', ' '] := by
      decide
    have hmessage : ("identifier not found: " ++ name).toList =
        "identifier not found".toList ++ ':' :: (' ' :: name.toList) := by
      rw [String.toList_append, hwords, List.append_assoc]
      rfl
    rw [hmessage, Text.splitAll_append_cons hbefore rfl, Text.splitAll_eq_self hafter]
  have hblank : ∀ c ∈ name.toList, Text.isBlank c = false :=
    fun c hc => isBlank_of_isNameChar (h c hc)
  have hleft : Text.trimLeft (' ' :: name.toList) = name.toList := by
    rw [Text.trimLeft_space]
    exact List.dropWhile_eq_self_iff.mpr fun hne => by simp [hblank _ (List.getElem_mem hne)]
  have htrim : Text.trim (String.ofList (' ' :: name.toList)) = name := by
    rw [Text.trim, String.toList_ofList, Text.trimBoth, hleft, Text.trimRight_eq_self hblank,
      String.ofList_toList]
  rw [Text.splitAt, hsplit]
  simp only [List.map_cons, List.map_nil, htrim, String.ofList_toList]
  rfl

/-- **The leaf of a name that is not bound** is the name, shortened and made safe, between words that
are the same for all names and have no letter `E`. -/
theorem exists_faultLeaf_eq (m : Markup) :
    ∃ before after : String, 'E' ∉ before.toList ∧ 'E' ∉ after.toList ∧
      ∀ name : String, IsName name.toList →
        m.faultLeaf (.unboundIdentifier name) = before ++ m.text (Text.shortenTypes name) ++ after := by
  have hmessage : ∀ name : String, IsName name.toList →
      m.messageLeaf (Fault.unboundIdentifier name).message =
        "identifier not found" ++ (m.lineBreak ++ m.text (Text.shortenTypes name)) := by
    intro name h
    have hparts := splitAt_unbound h.isNameChar_shortenTypes
    have hshort := shortenTypes_unbound name
    have hfixed : m.text "identifier not found" = "identifier not found" := by cases m <;> decide
    have hmap : ∀ parts : List String, parts.map (fun part => m.text (Text.trim part)) =
        (parts.map Text.trim).map m.text := fun parts => by simp
    rw [Text.shortenTypes] at hshort
    rw [messageLeaf, hshort, hmap, hparts]
    simp [hfixed, String.append_assoc]
  cases m with
  | plain =>
    have hbefore : 'E' ∉ ("\x7b" ++ ("identifier not found" ++ " / ")).toList := by
      simp only [String.toList_append, List.mem_append]
      decide
    refine ⟨_, "\x7d", hbefore, by decide, fun name h => ?_⟩
    unfold faultLeaf roof
    rw [hmessage name h]
    unfold lineBreak
    simp only [String.append_assoc]
  | qtree =>
    have hbefore : 'E' ∉
        ("\\edge[roof]; \x7b\\small " ++ ("identifier not found" ++ "\\\\")).toList := by
      simp only [String.toList_append, List.mem_append]
      decide
    refine ⟨_, "\x7d", hbefore, by decide, fun name h => ?_⟩
    unfold faultLeaf roof
    rw [hmessage name h]
    unfold lineBreak
    simp only [String.append_assoc]

/-- Escaping keeps the number of letters `E`. -/
theorem count_text (m : Markup) (s : String) : (m.text s).toList.count 'E' = s.toList.count 'E' := by
  have hpiece : ∀ c, (escapeLatex c).count 'E' = [c].count 'E' := by
    intro c
    have hall : ∀ e ∈ Latex.escapes, e.2.count 'E' = [e.1].count 'E' := by decide
    have h := Latex.piece_escapeLatex c
    generalize escapeLatex c = piece at h
    cases h with
    | escape h => exact hall _ h
    | ordinary _ => rfl
  cases m with
  | plain => rfl
  | qtree =>
    rw [text, String.toList_ofList]
    induction s.toList with
    | nil => rfl
    | cons c cs ih => rw [List.flatMap_cons, List.count_append, hpiece, ih, ← List.count_append]; rfl

/-- **Which leaf is drawn for a name that is not bound.** With faults as leaves, a fault that has no
number yet is drawn with its leaf. The leaves of two names are the same if and only if the names are
the same once the names of types in them are shortened; and the name itself, made safe, stands in its
leaf if and only if no name of a type occurs in it. -/
theorem faultLeaf_unbound (m : Markup) {x y : String} (hx : IsName x.toList) (hy : IsName y.toList)
    {s : Scene} (hs : s.verbosity.collapsesLeaves = true) (bodies : List NodeId) (id : ValueId)
    (seen : List Value) :
    let fault := Fault.unboundIdentifier x
    let drawing := (drawValue s bodies (.error id fault) seen).1
    ((∃ number, seen.findIdx? (·.is (.error id fault)) = some number ∧
        drawing = .reference (.error id fault) number) ∨
      ∃ number, ∀ depth, drawing.lines m depth = [Diagram.indent depth ++
        Diagram.onOneLine (Diagram.valueLabel m (.error id fault) number) (m.faultLeaf fault)]) ∧
    (m.faultLeaf fault = m.faultLeaf (.unboundIdentifier y) ↔
      Text.shortenTypes x = Text.shortenTypes y) ∧
    (OccursIn (m.text x) (m.faultLeaf fault) ↔ Text.NamesNoType x) := by
  intro fault drawing
  obtain ⟨before, after, hbefore, hafter, hleaf⟩ := exists_faultLeaf_eq m
  refine ⟨?_, ?_, ?_⟩
  · have hdrawn : ∀ number seen, (drawContentOf s bodies (.error id fault) number seen).1 =
        .fault (.error id fault) number fault.message := by
      intro number seen
      simp only [drawContentOf, hs, if_true]
      rfl
    have hdrawing : drawing = (drawValue s bodies (.error id fault) seen).1 := rfl
    rw [drawValue_apply] at hdrawing
    split at hdrawing
    · cases hnumber : seen.findIdx? (·.is (.error id fault)) with
      | some number =>
        rw [hnumber] at hdrawing
        exact Or.inl ⟨number, rfl, hdrawing⟩
      | none =>
        rw [hnumber, hdrawn] at hdrawing
        exact Or.inr ⟨_, fun depth => by rw [hdrawing, Diagram.lines, faultLeaf]⟩
    · rw [hdrawn] at hdrawing
      exact Or.inr ⟨_, fun depth => by rw [hdrawing, Diagram.lines, faultLeaf]⟩
  · rw [hleaf x hx, hleaf y hy]
    simp [text_inj]
  · rw [hleaf x hx]
    constructor
    · intro hoccurs
      by_contra hnames
      have hlost := Text.count_shortenTypes_lt hnames
      rw [Text.occursIn_iff_toList] at hoccurs
      have hle := hoccurs.sublist.count_le 'E'
      simp only [String.toList_append, List.count_append, count_text,
        List.count_eq_zero_of_not_mem hbefore, List.count_eq_zero_of_not_mem hafter] at hle
      omega
    · intro hnames
      rw [Text.shortenTypes_eq_self hnames]
      exact ((OccursIn.refl (m.text x)).append_left before).append_right after

/-- A name that has the name of a type in it does not stand in its leaf, which is that of another
name. -/
theorem faultLeaf_unbound_countInteger :
    IsName "COUNT_INTEGER".toList ∧ IsName "COUNT_INT".toList ∧
    (Scene.still ⟨1⟩).verbosity.collapsesLeaves = true ∧
    qtree.faultLeaf (.unboundIdentifier "COUNT_INTEGER") =
      qtree.faultLeaf (.unboundIdentifier "COUNT_INT") ∧
    ¬ OccursIn (qtree.text "COUNT_INTEGER") (qtree.faultLeaf (.unboundIdentifier "COUNT_INTEGER")) := by
  have hx : IsName "COUNT_INTEGER".toList := ⟨⟨'C', rfl, rfl⟩, List.all_eq_true.mp (by decide), by decide⟩
  have hy : IsName "COUNT_INT".toList := ⟨⟨'C', rfl, rfl⟩, List.all_eq_true.mp (by decide), by decide⟩
  have hs : (Scene.still ⟨1⟩).verbosity.collapsesLeaves = true := rfl
  obtain ⟨-, hsame, hstands⟩ := faultLeaf_unbound qtree hx hy hs [] (.made 0) []
  have hshort : Text.shortenTypes "COUNT_INTEGER" = Text.shortenTypes "COUNT_INT" := by
    decide +kernel
  have hinteger : OccursIn "INTEGER" "COUNT_INTEGER" := ⟨"COUNT_", "", by decide⟩
  exact ⟨hx, hy, hs, hsame.mpr hshort, fun hoccurs => (hstands.mp hoccurs).1 hinteger⟩

/-- The leaves of two different names are the same. -/
theorem faultLeaf_integer_eq_int :
    ¬ ∀ x y : String, IsName x.toList → IsName y.toList → x ≠ y →
      ∀ m : Markup, m.faultLeaf (.unboundIdentifier x) ≠ m.faultLeaf (.unboundIdentifier y) := by
  intro h
  have hx : IsName "INTEGER".toList := ⟨⟨'I', rfl, rfl⟩, List.all_eq_true.mp (by decide), by decide⟩
  have hy : IsName "INT".toList := ⟨⟨'I', rfl, rfl⟩, List.all_eq_true.mp (by decide), by decide⟩
  have hshort : Text.shortenTypes "INTEGER" = Text.shortenTypes "INT" := by decide +kernel
  obtain ⟨before, after, -, -, hleaf⟩ := exists_faultLeaf_eq plain
  exact h "INTEGER" "INT" hx hy (by decide) plain (by rw [hleaf _ hx, hleaf _ hy, hshort])

end Markup

end TraceTree

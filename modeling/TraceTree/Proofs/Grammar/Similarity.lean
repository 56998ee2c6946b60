import TraceTree.Proofs.Grammar.Parts

set_option autoImplicit false

/-! # Pairs that say the same

The text of a pair is read only where the pair is that of a token, and its span is never read. So
two pairs say the same if they have the same rule, if their texts are equal where the rule is an
atomic one, and if the pairs inside them say the same, one by one. -/

namespace TraceTree

/-- Pairs that differ at most in their spans and in the texts of what is not a token. -/
inductive Pair.Similar : Pair → Pair → Prop where
  | refl (p : Pair) : Similar p p
  | mk {r : Rule} {span span' : Span} {text text' : List Char} {inner inner' : List Pair}
      (hparts : rulesOf inner ∈ r.parts) (htext : r.isAtomic = true → text = text')
      (hinner : List.Forall₂ Similar inner inner') :
      Similar (.mk r span text inner) (.mk r span' text' inner')

/-- Lists of pairs that say the same, one by one. -/
abbrev PairsSimilar : List Pair → List Pair → Prop := List.Forall₂ Pair.Similar

namespace Pair.Similar

variable {p p' : Pair}

theorem rule_eq (h : p.Similar p') : p'.rule = p.rule := by
  cases h <;> rfl

theorem children (h : p.Similar p') : PairsSimilar p.children p'.children := by
  cases h with
  | refl => exact List.forall₂_same.mpr fun q _ => .refl q
  | mk _ _ hinner => exact hinner

theorem exists_mk {r : Rule} {span : Span} {text : List Char} {inner : List Pair}
    (h : Similar (.mk r span text inner) p') :
    ∃ span' text' inner', p' = .mk r span' text' inner' ∧ PairsSimilar inner inner' := by
  obtain ⟨r', span', text', inner'⟩ := p'
  obtain rfl : r' = r := h.rule_eq
  exact ⟨span', text', inner', rfl, h.children⟩

/-- Tokens that say the same have the same text. -/
theorem text_eq (h : p.Similar p') (hatomic : p.rule.isAtomic = true) : p'.text = p.text := by
  cases h with
  | refl => rfl
  | mk _ htext _ => exact (htext hatomic).symm

end Pair.Similar

theorem PairsSimilar.rulesOf_eq {ps ps' : List Pair} (h : PairsSimilar ps ps') :
    rulesOf ps' = rulesOf ps := by
  induction h with
  | nil => rfl
  | cons hp _ ih => exact congrArg₂ List.cons hp.rule_eq ih

mutual

theorem Pair.Similar.symm {p p' : Pair} (h : p.Similar p') : p'.Similar p := by
  cases h with
  | refl => exact .refl p
  | mk hparts htext hinner =>
    exact .mk (PairsSimilar.rulesOf_eq hinner ▸ hparts) (fun hatomic => (htext hatomic).symm)
      (PairsSimilar.symm hinner)
termination_by sizeOf p

theorem PairsSimilar.symm {ps ps' : List Pair} (h : PairsSimilar ps ps') : PairsSimilar ps' ps := by
  cases h with
  | nil => exact .nil
  | cons hp hmore => exact .cons hp.symm (PairsSimilar.symm hmore)
termination_by sizeOf ps

end

/-! ## Names -/

section

variable {span span' : Span} {text text' : List Char} {k k' name name' value value' : Pair}

/-- `let` statements that say the same bind the same name. -/
theorem Pair.Similar.name_eq
    (h : Similar (.mk .letStatement span text [k, name, value])
      (.mk .letStatement span' text' [k', name', value'])) : name'.text = name.text := by
  cases h with
  | refl => rfl
  | mk hparts _ hinner =>
    have hrule := (List.cons.inj (List.cons.inj (mem_parts_letStatement hparts)).2).1
    cases hinner with
    | cons _ hmore =>
      cases hmore with
      | cons hname _ => exact hname.text_eq (by rw [hrule]; rfl)

theorem PairsSimilar.texts_eq {names names' : List Pair} (h : PairsSimilar names names')
    (hrules : ∀ r ∈ rulesOf names, r = .identifier) :
    List.Forall₂ (fun name name' => name'.text = name.text) names names' := by
  induction h with
  | nil => exact .nil
  | cons hname _ ih =>
    obtain ⟨hrule, hmore⟩ := List.forall_mem_cons.mp hrules
    exact .cons (hname.text_eq (by rw [hrule]; rfl)) (ih hmore)

/-- Function literals that say the same have the same parameters. -/
theorem Pair.Similar.names_eq {r r' : Rule} {nspan nspan' : Span} {ntext ntext' : List Char}
    {names names' : List Pair}
    (h : Similar (.mk .functionLiteral span text [k, .mk r nspan ntext names, value])
      (.mk .functionLiteral span' text' [k', .mk r' nspan' ntext' names', value'])) :
    List.Forall₂ (fun name name' => name'.text = name.text) names names' := by
  cases h with
  | refl => exact List.forall₂_same.mpr fun _ _ => rfl
  | mk hparts _ hinner =>
    obtain rfl : r = .parameters :=
      (List.cons.inj (List.cons.inj (mem_parts_functionLiteral hparts)).2).1
    cases hinner with
    | cons _ hmore =>
      cases hmore with
      | cons hnames _ =>
        cases hnames with
        | refl => exact List.forall₂_same.mpr fun _ _ => rfl
        | mk hparts _ hinner => exact PairsSimilar.texts_eq hinner (mem_parts_parameters hparts)

end

end TraceTree

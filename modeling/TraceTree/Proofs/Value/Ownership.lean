import TraceTree.Eval.Operation
import TraceTree.Proofs.Eval.Identity

set_option autoImplicit false

/-! # Values without their owners

Each evaluator has truth values and a null of its own. `Value.unowned` forgets which evaluator a
constant belongs to. Nothing that operations look at gets lost: truth values and null are compared by
content, and no other value has the identity of a constant (`Value.Genuine`), so values that are told
apart by their identities still are. -/

namespace TraceTree

/-- The identity of a value, with the constants of all evaluators taken for those of the first. -/
def ValueId.unowned : ValueId → ValueId
  | made serial => made serial
  | shared _ constant => shared 0 constant

namespace Value

/-- The same value, with the constants in it taken for those of the first evaluator. -/
def unowned : Value → Value
  | integer id n => integer id.unowned n
  | boolean id b => boolean id.unowned b
  | null id => null id.unowned
  | returned id v => returned id.unowned v.unowned
  | error id fault => error id.unowned fault
  | function id closure => function id.unowned closure

/-- Only the constants of evaluators have the identities of constants. -/
def Genuine (v : Value) : Prop :=
  ∀ u ∈ v.layers, ∀ evaluator constant, u.id = .shared evaluator constant →
    u = constantOf evaluator constant

/-- What is shown of a value: its type and its text. -/
def shown (v : Value) : ValueType × String := (v.type, v.text)

/-! ## What is read of a value -/

section

variable (v : Value)

@[simp] theorem id_unowned : v.unowned.id = v.id.unowned := by cases v <;> rfl

@[simp] theorem type_unowned : v.unowned.type = v.type := by cases v <;> rfl

@[simp] theorem int?_unowned : v.unowned.int? = v.int? := by cases v <;> rfl

@[simp] theorem isError_unowned : v.unowned.isError = v.isError := by cases v <;> rfl

@[simp] theorem endsSequence_unowned : v.unowned.endsSequence = v.endsSequence := by
  cases v <;> rfl

@[simp] theorem any_endsSequence_unowned (v : Option Value) :
    (v.map unowned).any endsSequence = v.any endsSequence := by
  cases v <;> simp

@[simp] theorem unwrapped_unowned : v.unowned.unwrapped = v.unwrapped.unowned := by
  cases v <;> rfl

@[simp] theorem isTruthy_unowned : v.unowned.isTruthy = v.isTruthy := by
  cases v with
  | boolean id b => cases b <;> rfl
  | _ => rfl

@[simp] theorem text_unowned : v.unowned.text = v.text := by
  induction v with
  | returned id v ih => simpa only [unowned, text] using ih
  | _ => rfl

@[simp] theorem shown_unowned : v.unowned.shown = v.shown := by simp [shown]

end

/-! ## What evaluations make is genuine -/

section

variable {u v : Value}

theorem Genuine.layer (hv : v.Genuine) (hu : u ∈ v.layers) : u.Genuine :=
  fun w hw => hv w (layers_trans hu hw)

theorem Genuine.unwrapped (hv : v.Genuine) : v.unwrapped.Genuine := by
  cases v with
  | returned id w => exact hv.layer (List.mem_cons_of_mem _ w.mem_layers)
  | _ => exact hv

theorem genuine_constant (evaluator : Nat) (constant : Constant) :
    (constantOf evaluator constant).Genuine := by
  intro u hu evaluator' constant' hid
  cases constant <;>
  · rw [List.mem_singleton.mp hu] at hid ⊢
    obtain ⟨rfl, rfl⟩ := ValueId.shared.inj hid
    rfl

/-- A value with a serial number is genuine if those are that it wraps. -/
theorem genuine_made {serial : Nat} (hid : v.id = .made serial)
    (htail : ∀ u ∈ v.layers.tail, u.Genuine) : v.Genuine := by
  intro u hu evaluator constant hshared
  rw [v.layers_eq] at hu
  rcases List.mem_cons.mp hu with rfl | hu
  · rw [hid] at hshared
    cases hshared
  · exact htail u hu u u.mem_layers evaluator constant hshared

end

/-! ## Equality -/

section

variable {a b : Value}

/-- Among genuine values, identities that differ in the owner alone are those of constants. -/
theorem id_eq_or_constant (ha : a.Genuine) (hb : b.Genuine) (h : a.id.unowned = b.id.unowned) :
    a.id = b.id ∨ ∃ evaluator evaluator' constant,
      a = constantOf evaluator constant ∧ b = constantOf evaluator' constant := by
  cases hida : a.id with
  | made serial =>
    cases hidb : b.id with
    | made serial' => exact Or.inl (by simpa [hida, hidb, ValueId.unowned] using h)
    | shared evaluator' constant' => simp [hida, hidb, ValueId.unowned] at h
  | shared evaluator constant =>
    cases hidb : b.id with
    | made serial' => simp [hida, hidb, ValueId.unowned] at h
    | shared evaluator' constant' =>
      obtain rfl : constant = constant' := by simpa [hida, hidb, ValueId.unowned] using h
      exact Or.inr ⟨evaluator, evaluator', constant, ha a a.mem_layers _ _ hida,
        hb b b.mem_layers _ _ hidb⟩

/-- Whether the equality of two values is one of contents. -/
def comparedByContent (a b : Value) : Bool :=
  a.type == b.type && (a.type == .boolean || a.type == .null)

theorem same_eq_is (h : a.comparedByContent b = false) : a.same b = a.is b := by
  cases a <;> cases b <;> first | rfl | cases h

/-- **The equality of genuine values does not depend on who owns the constants.** -/
theorem same_unowned (ha : a.Genuine) (hb : b.Genuine) :
    a.unowned.same b.unowned = a.same b := by
  cases hcontent : a.comparedByContent b with
  | true => cases a <;> cases b <;> first | rfl | cases hcontent
  | false =>
    have hcontent' : a.unowned.comparedByContent b.unowned = false := by
      simpa [comparedByContent] using hcontent
    rw [same_eq_is hcontent, same_eq_is hcontent', is, is, id_unowned, id_unowned,
      Bool.eq_iff_iff, beq_iff_eq, beq_iff_eq]
    refine ⟨fun h => ?_, congrArg _⟩
    rcases id_eq_or_constant ha hb h with heq | ⟨_, _, constant, rfl, rfl⟩
    · exact heq
    · cases constant <;> cases hcontent

end

end Value

/-! ## Operations -/

theorem PrefixOp.apply_unowned (op : PrefixOp) (right : Value) :
    op.apply right.unowned = op.apply right := by
  cases op with
  | not => simp [apply]
  | neg => cases right <;> rfl

namespace InfixOp

/-- What an operator makes of operands that are not both integers. -/
theorem apply_of_int?_eq_none (op : InfixOp) {left right : Value}
    (h : left.int? = none ∨ right.int? = none) :
    op.apply left right =
      match op with
      | eq => .boolean (left.same right)
      | notEq => .boolean (!left.same right)
      | op =>
        if left.type = right.type then .fault (.unknownInfix left.type op right.type)
        else .fault (.typeMismatch left.type op right.type) := by
  cases left <;> cases right <;> first | rfl | simp [Value.int?] at h

/-- What an operator makes of operands depends on the integers that they are, their types and whether
they are equal. -/
theorem apply_congr (op : InfixOp) {left right left' right' : Value}
    (hleft : left'.int? = left.int? ∧ left'.type = left.type)
    (hright : right'.int? = right.int? ∧ right'.type = right.type)
    (hsame : left'.same right' = left.same right) :
    op.apply left' right' = op.apply left right := by
  by_cases h : left.int? = none ∨ right.int? = none
  · have h' : left'.int? = none ∨ right'.int? = none := by rwa [hleft.1, hright.1]
    rw [apply_of_int?_eq_none op h, apply_of_int?_eq_none op h', hsame, hleft.2, hright.2]
  · have hinteger : ∀ {v : Value} {n : Int64}, v.int? = some n → ∃ id, v = .integer id n := by
      intro v n hv
      cases v <;> simp_all [Value.int?]
    rw [not_or, ← ne_eq, ← ne_eq, Option.ne_none_iff_exists', Option.ne_none_iff_exists'] at h
    obtain ⟨⟨l, hl⟩, ⟨r, hr⟩⟩ := h
    obtain ⟨_, rfl⟩ := hinteger hl
    obtain ⟨_, rfl⟩ := hinteger hr
    obtain ⟨_, rfl⟩ := hinteger (hleft.1.trans hl)
    obtain ⟨_, rfl⟩ := hinteger (hright.1.trans hr)
    rfl

/-- **An operation on genuine values does not depend on who owns the constants.** -/
theorem apply_unowned (op : InfixOp) {left right : Value} (hleft : left.Genuine)
    (hright : right.Genuine) : op.apply left.unowned right.unowned = op.apply left right :=
  op.apply_congr ⟨left.int?_unowned, left.type_unowned⟩ ⟨right.int?_unowned, right.type_unowned⟩
    (Value.same_unowned hleft hright)

end InfixOp

end TraceTree

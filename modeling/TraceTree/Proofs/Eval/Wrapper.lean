import TraceTree.Proofs.Eval.Move

set_option autoImplicit false

/-! # The wrapper of a `return`

A `return` puts its value into a wrapper, which is to carry it out of the statements around. Blocks,
expression statements and the branches of an `if` hand the wrapper on, and a program unwraps it. All
other nodes look for faults alone and take a wrapper for an ordinary operand. -/

namespace TraceTree

/-- Whether a value is the wrapper of a `return`. -/
def Value.isWrapper : Value → Bool
  | returned _ _ => true
  | _ => false

/-- Whether a node takes the value of its part with this position for an operand: it checks the
value for a fault, and for nothing else. -/
def Node.takesOperand : Node → Nat → Bool
  | .letStatement _ _ _, _ | .returnStatement _ _, _ | .prefixExpression _ _ _, _
  | .infixExpression _ _ _ _, _ | .call _ _ _, _ => true
  | .ifExpression _ _ _ _, position => position == 0
  | _, _ => false

/-- What a node that does not take a wrapper for an operand ends with. -/
def Node.handOn : Node → Value → Value
  | .program _ _, wrapper => wrapper.unwrapped
  | _, wrapper => wrapper

namespace Value

variable {w : Value}

theorem isError_of_isWrapper (h : w.isWrapper = true) : w.isError = false := by
  cases w <;> first | rfl | cases h

theorem endsSequence_of_isWrapper (h : w.isWrapper = true) : w.endsSequence = true := by
  cases w <;> first | rfl | cases h

theorem isTruthy_of_isWrapper (h : w.isWrapper = true) : w.isTruthy = true := by
  cases w <;> first | rfl | cases h

theorem returned_ne (id : ValueId) (w : Value) : returned id w ≠ w := by
  intro h
  have hsize := congrArg sizeOf h
  simp at hsize

end Value

/-- The result of an operation is no wrapper. -/
theorem Ending.isWrapper_apply_result {r : Result} {scope : ScopeId} {m : Machine} {v : Value}
    (h : ((Ending.result r).apply scope m).1 = some v) : v.isWrapper = false := by
  cases r with
  | integer n => rw [← Option.some.inj h]; rfl
  | boolean b => rw [← Option.some.inj h]; rfl
  | fault fault => rw [← Option.some.inj h]; rfl

namespace Move

variable {null w : Value}

theorem unlessError_of_isWrapper (hw : w.isWrapper = true) (move : Move) :
    unlessError w move = move := by
  rw [unlessError, if_neg (by rw [Value.isError_of_isWrapper hw]; exact Bool.false_ne_true)]

/-- A call whose operand is a wrapper ends with a fault, if it ends then. -/
theorem operands_concat (hw : w.isWrapper = true) {function : Value} {values : List Value}
    {operands : List Node} {done : List (Option Value)} {part : Node} {ending : Ending}
    (h : Move.operands null function values operands done = .visit part)
    (hend : Move.operands null function values operands (done ++ [some w]) = .finish ending) :
    ∃ r, ending = .result r := by
  induction operands generalizing values done with
  | nil => exact absurd h application_ne_visit
  | cons operand more ih =>
    cases done with
    | nil =>
      rw [List.nil_append, Move.operands] at hend
      rw [show (some w).getD null = w from rfl, unlessError_of_isWrapper hw] at hend
      cases more with
      | nil => exact application_eq_finish hend
      | cons next more => exact absurd hend (by simp [Move.operands])
    | cons value done =>
      rw [List.cons_append, Move.operands] at hend
      obtain ⟨herror, hvisit⟩ := unlessError_eq_of_ne h (by simp)
      rcases unlessError_eq hend with ⟨hfault, _⟩ | ⟨_, hend⟩
      · rw [herror] at hfault
        cases hfault
      · exact ih hvisit hend

end Move

namespace Node

variable {null w : Value} {n part : Node} {done : List (Option Value)}

/-- **A wrapper that is not taken for an operand is handed on at once.** -/
theorem move_concat_wrapper (hw : w.isWrapper = true) (h : n.move null done = .visit part)
    (htakes : n.takesOperand done.length = false) :
    n.move null (done ++ [some w]) = .finish (.value (some (n.handOn w))) := by
  cases n with
  | program id statements =>
    exact Move.sequence_concat (Value.endsSequence_of_isWrapper hw) (Move.ne_finish_of_visit h)
  | block id statements =>
    exact Move.sequence_concat (Value.endsSequence_of_isWrapper hw) (Move.ne_finish_of_visit h)
  | expressionStatement id expression =>
    cases done with
    | nil => rfl
    | cons value done => exact absurd h (by simp [move])
  | ifExpression id condition consequence alternative =>
    rcases done with _ | ⟨test, _ | ⟨value, done⟩⟩
    · exact absurd htakes (by simp [takesOperand])
    · rfl
    · exact absurd h (by simp [move])
  | integer id n => exact absurd h (by simp [move])
  | boolean id b => exact absurd h (by simp [move])
  | identifier id name => exact absurd h (by simp [move])
  | functionLiteral id parameters body => exact absurd h (by simp [move])
  | letStatement id target operand => exact absurd htakes (by simp [takesOperand])
  | returnStatement id operand => exact absurd htakes (by simp [takesOperand])
  | prefixExpression id op operand => exact absurd htakes (by simp [takesOperand])
  | infixExpression id op first second => exact absurd htakes (by simp [takesOperand])
  | call id callee operands => exact absurd htakes (by simp [takesOperand])

/-- **A wrapper taken for an operand is not handed on.** If the node ends with it, then with something
else. -/
theorem apply_ne_wrapper (hw : w.isWrapper = true) (h : n.move null done = .visit part)
    (htakes : n.takesOperand done.length = true) {ending : Ending}
    (hend : n.move null (done ++ [some w]) = .finish ending) (scope : ScopeId) (m : Machine) :
    (ending.apply scope m).1 ≠ some w := by
  have hresult : (∃ r, ending = .result r) → (ending.apply scope m).1 ≠ some w := by
    rintro ⟨r, rfl⟩ happly
    rw [Ending.isWrapper_apply_result happly] at hw
    cases hw
  have hunless : ∀ move, Move.unlessError w move = move := Move.unlessError_of_isWrapper hw
  cases n with
  | returnStatement id operand =>
    cases done with
    | nil =>
      have hwrap : Move.unlessError w (.finish (.wrap w)) = .finish ending := hend
      rw [hunless] at hwrap
      obtain rfl := Move.finish.inj hwrap
      exact fun happly => Value.returned_ne _ w (Option.some.inj happly)
    | cons value done => exact absurd (Move.unlessError_eq_of_ne h (by simp)).2 (by simp)
  | letStatement id target operand =>
    cases done with
    | nil =>
      have hbind : Move.unlessError w (.finish (.bind target w)) = .finish ending := hend
      rw [hunless] at hbind
      obtain rfl := Move.finish.inj hbind
      rw [Ending.apply]
      split <;> simp
    | cons value done => exact absurd (Move.unlessError_eq_of_ne h (by simp)).2 (by simp)
  | prefixExpression id op operand =>
    cases done with
    | nil =>
      have hop : Move.unlessError w (.finish (.result (op.apply w))) = .finish ending := hend
      rw [hunless] at hop
      exact hresult ⟨_, (Move.finish.inj hop).symm⟩
    | cons value done => exact absurd (Move.unlessError_eq_of_ne h (by simp)).2 (by simp)
  | infixExpression id op first second =>
    rcases done with _ | ⟨left, _ | ⟨right, done⟩⟩
    · have hvisit : Move.unlessError w (.visit second) = .finish ending := hend
      rw [hunless] at hvisit
      exact absurd hvisit (by simp)
    · have hop : Move.unlessError w (.finish (.result (op.apply (left.getD null) w))) =
          .finish ending := hend
      rw [hunless] at hop
      exact hresult ⟨_, (Move.finish.inj hop).symm⟩
    · exact absurd (Move.unlessError_eq_of_ne h (by simp)).2 (by simp)
  | ifExpression id condition consequence alternative =>
    rcases done with _ | ⟨test, done⟩
    · have hvisit : Move.unlessError w (if w.isTruthy then .visit consequence else _) =
          .finish ending := hend
      rw [hunless, if_pos (Value.isTruthy_of_isWrapper hw)] at hvisit
      exact absurd hvisit (by simp)
    · exact absurd htakes (by simp [takesOperand])
  | call id callee operands =>
    cases done with
    | nil =>
      have hcall : Move.unlessError w (.operands null w [] operands []) = .finish ending := hend
      rw [hunless] at hcall
      cases operands with
      | nil => exact hresult (Move.application_eq_finish hcall)
      | cons operand more => exact absurd hcall (by simp [Move.operands])
    | cons function done =>
      have hcall : Move.unlessError (function.getD null)
          (.operands null (function.getD null) [] operands (done ++ [some w])) = .finish ending := hend
      obtain ⟨herror, hvisit⟩ := Move.unlessError_eq_of_ne h (by simp)
      rcases Move.unlessError_eq hcall with ⟨hfault, _⟩ | ⟨_, hcall⟩
      · rw [herror] at hfault
        cases hfault
      · exact hresult (Move.operands_concat hw hvisit hcall)
  | program id statements => exact absurd htakes (by simp [takesOperand])
  | block id statements => exact absurd htakes (by simp [takesOperand])
  | expressionStatement id expression => exact absurd htakes (by simp [takesOperand])
  | integer id n => exact absurd htakes (by simp [takesOperand])
  | boolean id b => exact absurd htakes (by simp [takesOperand])
  | identifier id name => exact absurd htakes (by simp [takesOperand])
  | functionLiteral id parameters body => exact absurd htakes (by simp [takesOperand])

end Node

end TraceTree

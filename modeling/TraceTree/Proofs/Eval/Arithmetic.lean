import TraceTree.Proofs.Trace.Limit

set_option autoImplicit false

/-! # Integers wrap around once

Each operation on integers cuts its result to 64 bits. As reducing modulo `2 ^ 64` goes through sums,
differences, products and negation, it makes no difference how often it is done on the way: an
expression that is put together from literals by these operations has its exact value, reduced once at
the end (`Node.Exact.evalWithin_eq`). The quotient is no such operation; it is cut to 64 bits at the
one place where it does not fit, the least integer divided by minus one.

`Int.bmod x (2 ^ 64)` is the reduced value: what differs from `x` by a multiple of `2 ^ 64` and lies
from `-2 ^ 63` to `2 ^ 63 - 1`. -/

namespace TraceTree

/-! ## Operations -/

/-- The sum, difference or product of unbounded integers, for the operators that stand for these. -/
def InfixOp.exact? : InfixOp → Option (Int → Int → Int)
  | add => some (· + ·)
  | sub => some (· - ·)
  | mul => some (· * ·)
  | div | lt | gt | eq | notEq => none

namespace InfixOp

variable {op : InfixOp} {f : Int → Int → Int}

/-- A sum, difference or product of integers is the exact one, reduced. -/
theorem applyIntegers_exact (hop : op.exact? = some f) (l r : Int64) :
    ∃ n : Int64, op.applyIntegers l r = .integer n ∧ n.toInt = (f l.toInt r.toInt).bmod (2 ^ 64) := by
  cases op with
  | add =>
    obtain rfl := Option.some.inj hop
    exact ⟨l + r, rfl, Int64.toInt_add l r⟩
  | sub =>
    obtain rfl := Option.some.inj hop
    exact ⟨l - r, rfl, Int64.toInt_sub l r⟩
  | mul =>
    obtain rfl := Option.some.inj hop
    exact ⟨l * r, rfl, Int64.toInt_mul l r⟩
  | div | lt | gt | eq | notEq => cases hop

/-- It does not matter whether the operands have been reduced before. -/
theorem exact_bmod (hop : op.exact? = some f) (x y : Int) (modulus : Nat) :
    (f (x.bmod modulus) (y.bmod modulus)).bmod modulus = (f x y).bmod modulus := by
  cases op with
  | add =>
    obtain rfl := Option.some.inj hop
    rw [Int.bmod_add_bmod, Int.add_bmod_bmod]
  | sub =>
    obtain rfl := Option.some.inj hop
    rw [Int.bmod_sub_bmod, Int.sub_bmod_bmod]
  | mul =>
    obtain rfl := Option.some.inj hop
    rw [Int.bmod_mul_bmod, Int.mul_bmod_bmod]
  | div | lt | gt | eq | notEq => cases hop

/-- A quotient of integers is truncated toward zero and reduced, unless the divisor is zero. -/
theorem applyIntegers_div (l r : Int64) :
    (r = 0 ∧ div.applyIntegers l r = .fault .divisionByZero) ∨
      (r ≠ 0 ∧ ∃ q : Int64, div.applyIntegers l r = .integer q ∧
        q.toInt = (l.toInt.tdiv r.toInt).bmod (2 ^ 64)) := by
  by_cases hr : r = 0
  · exact Or.inl ⟨hr, if_pos hr⟩
  · exact Or.inr ⟨hr, l / r, if_neg hr, Int64.toInt_div l r⟩

end InfixOp

/-- A value is what an operation gives, with some identity. -/
def Result.Given : Result → Value → Prop
  | .integer n, v => ∃ id, v = .integer id n
  | .boolean b, v => ∃ id, v = .boolean id b
  | .fault cause, v => ∃ id, v = .error id cause

/-! ## Operands -/

namespace Eval

variable {act : Eval (Option Value)} {m m' : Machine}

/-- What follows an operand goes on with its value. -/
theorem operand_apply {v : Value} (h : act m = (.ok (some v), m'))
    (next : Value → Eval (Option Value)) : ((act >>= orNull) >>= next) m = next v m' := by
  rw [bind_assoc, bind_apply, h]
  rfl

/-- What follows an operand is not reached if the operand is given up. -/
theorem operand_overflow {o : Overflow} (h : act m = (.error o, m'))
    (next : Value → Eval (Option Value)) : ((act >>= orNull) >>= next) m = (.error o, m') := by
  rw [bind_assoc, bind_apply, h]

theorem some_ofResult_apply (r : Result) (m : Machine) :
    ∃ v m', (some <$> ofResult r) m = (.ok (some v), m') ∧ r.Given v := by
  rw [map_some_apply]
  cases r with
  | integer n | boolean b | fault fault => exact ⟨_, _, rfl, _, rfl⟩

end Eval

section Operands

variable {remaining : Nat} {m m₁ m₂ : Machine} {scope : ScopeId} {left right : Node}
  {i j : ValueId} {l r : Int64}

theorem evalWithin_of_value {node : Node} {v : Option Value}
    (h : node.evaluate (evalWithin remaining) scope (m.enter node scope) = (.ok v, m₁)) :
    evalWithin (remaining + 1) node scope m = (.ok v, m₁.leave node scope v) := by
  rw [evalWithin_succ_apply, h]

theorem evalWithin_of_overflow {node : Node} {o : Overflow}
    (h : node.evaluate (evalWithin remaining) scope (m.enter node scope) = (.error o, m₁)) :
    evalWithin (remaining + 1) node scope m = (.error o, { m₁ with depth := m₁.depth - 1 }) := by
  rw [evalWithin_succ_apply, h]

/-- **The negation of an integer** is evaluated to its negative, in 64 bits. -/
theorem evalWithin_neg (id : NodeId)
    (hr : evalWithin remaining right scope (m.enter (.prefixExpression id .neg right) scope) =
      (.ok (some (.integer j r)), m₁)) :
    ∃ k m', evalWithin (remaining + 1) (.prefixExpression id .neg right) scope m =
      (.ok (some (.integer k (-r))), m') := by
  obtain ⟨v, m', hact, k, rfl⟩ := Eval.some_ofResult_apply (PrefixOp.neg.apply (.integer j r)) m₁
  exact ⟨k, _, evalWithin_of_value ((Eval.operand_apply hr _).trans hact)⟩

/-- **An operator between two integers** is evaluated to what it makes of them. -/
theorem evalWithin_infix (id : NodeId) {op : InfixOp}
    (hl : evalWithin remaining left scope (m.enter (.infixExpression id op left right) scope) =
      (.ok (some (.integer i l)), m₁))
    (hr : evalWithin remaining right scope m₁ = (.ok (some (.integer j r)), m₂)) :
    ∃ v m', evalWithin (remaining + 1) (.infixExpression id op left right) scope m =
      (.ok (some v), m') ∧ (op.applyIntegers l r).Given v := by
  obtain ⟨v, m', hact, hv⟩ := Eval.some_ofResult_apply (op.applyIntegers l r) m₂
  have hright := (Eval.operand_apply hr fun right =>
    if right.isError then pure (some right)
    else some <$> Eval.ofResult (op.apply (.integer i l) right)).trans hact
  exact ⟨v, _, evalWithin_of_value ((Eval.operand_apply hl _).trans hright), hv⟩

end Operands

/-! ## Expressions -/

/-- The expressions that are put together from integer literals by the prefix `-` and by `+`, `-` and
`*`, each with its height and its value in unbounded integers. -/
inductive Node.Exact : Node → Nat → Int → Prop where
  | literal (id : NodeId) (n : Int64) : Exact (.integer id n) 1 n.toInt
  | neg (id : NodeId) {right : Node} {height : Nat} {x : Int} (operand : Exact right height x) :
      Exact (.prefixExpression id .neg right) (height + 1) (-x)
  | combine (id : NodeId) {op : InfixOp} {f : Int → Int → Int} {left right : Node} {h k : Nat}
      {x y : Int} (exact : op.exact? = some f) (first : Exact left h x) (second : Exact right k y) :
      Exact (.infixExpression id op left right) (max h k + 1) (f x y)

namespace Node.Exact

variable {node : Node} {height : Nat} {x : Int}

/-- **An expression of integers has its exact value, reduced once,** if it is not too high. -/
theorem evalWithin_eq (h : node.Exact height x) (scope : ScopeId) {remaining : Nat}
    (hle : height ≤ remaining) (m : Machine) :
    ∃ id n m', evalWithin remaining node scope m = (.ok (some (.integer id n)), m') ∧
      n.toInt = x.bmod (2 ^ 64) := by
  induction h generalizing remaining m with
  | literal id n =>
    obtain ⟨remaining, rfl⟩ := Nat.exists_eq_add_of_le' hle
    obtain ⟨v, m', hact, k, rfl⟩ :=
      Eval.some_ofResult_apply (.integer n) (m.enter (.integer id n) scope)
    exact ⟨k, n, _, evalWithin_of_value hact, n.toInt_bmod.symm⟩
  | @neg id right height x operand ih =>
    obtain ⟨remaining, rfl⟩ := Nat.exists_eq_add_of_le' (Nat.le_of_add_left_le hle)
    obtain ⟨j, r, m₁, hr, hx⟩ := ih (Nat.le_of_succ_le_succ hle) (m.enter _ scope)
    obtain ⟨k, m', heval⟩ := evalWithin_neg id hr
    refine ⟨k, -r, m', heval, ?_⟩
    rw [Int64.toInt_neg, hx, Int.bmod_neg_bmod]
  | @combine id op f left right h k x y exact first second ihl ihr =>
    obtain ⟨remaining, rfl⟩ := Nat.exists_eq_add_of_le' (Nat.le_of_add_left_le hle)
    have hmax : h ≤ remaining ∧ k ≤ remaining := Nat.max_le.mp (Nat.le_of_succ_le_succ hle)
    obtain ⟨i, l, m₁, hl, hx⟩ := ihl hmax.1 (m.enter _ scope)
    obtain ⟨j, r, m₂, hr, hy⟩ := ihr hmax.2 m₁
    obtain ⟨v, m', heval, hv⟩ := evalWithin_infix id hl hr
    obtain ⟨n, happly, hn⟩ := InfixOp.applyIntegers_exact exact l r
    rw [happly] at hv
    obtain ⟨k, rfl⟩ := hv
    refine ⟨k, n, m', heval, ?_⟩
    rw [hn, hx, hy, InfixOp.exact_bmod exact]

/-- An expression that is too high is given up. -/
theorem evalWithin_overflow (h : node.Exact height x) (scope : ScopeId) {remaining : Nat}
    (hlt : remaining < height) (m : Machine) :
    ∃ o m', evalWithin remaining node scope m = (.error o, m') := by
  induction h generalizing remaining m with
  | literal id n =>
    obtain rfl := Nat.lt_one_iff.mp hlt
    exact ⟨_, _, rfl⟩
  | @neg id right height x operand ih =>
    cases remaining with
    | zero => exact ⟨_, _, rfl⟩
    | succ remaining =>
      obtain ⟨o, m₁, hr⟩ := ih (Nat.lt_of_succ_lt_succ hlt) (m.enter _ scope)
      exact ⟨o, _, evalWithin_of_overflow (Eval.operand_overflow hr _)⟩
  | @combine id op f left right h k x y exact first second ihl ihr =>
    cases remaining with
    | zero => exact ⟨_, _, rfl⟩
    | succ remaining =>
      -- the operand on the left is given up, or it has a value and the one on the right is given up
      by_cases hleft : remaining < h
      · obtain ⟨o, m₁, hl⟩ := ihl hleft (m.enter _ scope)
        exact ⟨o, _, evalWithin_of_overflow (Eval.operand_overflow hl _)⟩
      · have hright : remaining < k := by omega
        obtain ⟨i, l, m₁, hl, _⟩ :=
          first.evalWithin_eq scope (Nat.le_of_not_lt hleft) (m.enter _ scope)
        obtain ⟨o, m₂, hr⟩ := ihr hright m₁
        have hsecond := Eval.operand_overflow hr fun right =>
          if right.isError then pure (some right)
          else some <$> Eval.ofResult (op.apply (.integer i l) right)
        exact ⟨o, _, evalWithin_of_overflow ((Eval.operand_apply hl _).trans hsecond)⟩

end Node.Exact

/-! ## Evaluations -/

namespace Machine

/-- **The quotient of two integers** is evaluated to what the division makes of them, whatever the
operands are. -/
theorem eval_div {m m₁ m₂ : Machine} {scope : ScopeId} {id : NodeId} {left right : Node}
    {i j : ValueId} {l r : Int64}
    (hl : (m.enter (.infixExpression id .div left right) scope).eval left scope =
      (.ok (some (.integer i l)), m₁))
    (hr : m₁.eval right scope = (.ok (some (.integer j r)), m₂)) :
    ∃ v m', m.eval (.infixExpression id .div left right) scope = (.ok (some v), m') ∧
      (InfixOp.div.applyIntegers l r).Given v := by
  have hlimit := limit_eval (m.enter (.infixExpression id .div left right) scope) left scope
  have hdepth := depth_eval (m.enter (.infixExpression id .div left right) scope) left scope
  rw [hl] at hlimit hdepth
  -- the operands are evaluated one node further in
  have hinner : m₁.limit - m₁.depth = m.limit - (m.depth + 1) := by
    rw [hlimit, hdepth]
    rfl
  rw [eval, hinner] at hr
  rw [eval] at hl
  change evalWithin (m.limit - (m.depth + 1)) left scope _ = _ at hl
  rw [eval]
  cases hremaining : m.limit - (m.depth + 1) with
  | zero =>
    rw [hremaining] at hl
    cases hl
  | succ remaining =>
    have hlevel : m.limit - m.depth = m.limit - (m.depth + 1) + 1 := by omega
    rw [hlevel]
    exact evalWithin_infix id hl hr

/-- **Integer arithmetic is exact modulo `2 ^ 64`.** An expression that is put together from integer
literals by the prefix `-` and by `+`, `-` and `*` is evaluated, wherever the limit allows its height,
to an integer: its exact value, reduced once. Where the limit does not, the evaluation is given up.
The quotient of any two integers is the fault of a division by zero if the divisor is zero, and only
then; otherwise it is an integer, truncated toward zero and reduced. -/
theorem eval_exact (m : Machine) (scope : ScopeId) :
    (∀ node height x, node.Exact height x →
      (height ≤ m.limit - m.depth → ∃ id n,
        (m.eval node scope).1 = .ok (some (.integer id n)) ∧ n.toInt = x.bmod (2 ^ 64)) ∧
      (m.limit - m.depth < height → ∃ o, (m.eval node scope).1 = .error o)) ∧
    ∀ id left right i l m₁ j r m₂,
      (m.enter (.infixExpression id .div left right) scope).eval left scope =
          (.ok (some (.integer i l)), m₁) →
      m₁.eval right scope = (.ok (some (.integer j r)), m₂) →
      ∃ v, (m.eval (.infixExpression id .div left right) scope).1 = .ok (some v) ∧
        ((∃ e fault, v = .error e fault ∧ fault.message = "division by zero") ↔ r = 0) ∧
        (r ≠ 0 → ∃ e q, v = .integer e q ∧ q.toInt = (l.toInt.tdiv r.toInt).bmod (2 ^ 64)) := by
  refine ⟨fun node height x h => ⟨fun hle => ?_, fun hlt => ?_⟩,
    fun id left right i l m₁ j r m₂ hl hr => ?_⟩
  · obtain ⟨id, n, m', heval, hn⟩ := h.evalWithin_eq scope hle m
    exact ⟨id, n, by rw [eval, heval], hn⟩
  · obtain ⟨o, m', heval⟩ := h.evalWithin_overflow scope hlt m
    exact ⟨o, by rw [eval, heval]⟩
  · obtain ⟨v, m', heval, hv⟩ := eval_div hl hr
    refine ⟨v, by rw [heval], ?_⟩
    rcases InfixOp.applyIntegers_div l r with ⟨hzero, happly⟩ | ⟨hzero, q, happly, hq⟩
    · rw [happly] at hv
      obtain ⟨e, rfl⟩ := hv
      exact ⟨⟨fun _ => hzero, fun _ => ⟨e, .divisionByZero, rfl, rfl⟩⟩, fun hne => absurd hzero hne⟩
    · rw [happly] at hv
      obtain ⟨e, rfl⟩ := hv
      refine ⟨⟨fun hfault => ?_, fun heq => absurd heq hzero⟩, fun _ => ⟨e, q, rfl, hq⟩⟩
      obtain ⟨_, _, hfault, _⟩ := hfault
      cases hfault

/-- The tree of `-(9223372036854775807 + 1) * 3 - 5`. -/
def wrappedProduct : Node :=
  .infixExpression 0 .sub
    (.infixExpression 1 .mul
      (.prefixExpression 2 .neg
        (.infixExpression 3 .add (.integer 4 9223372036854775807) (.integer 5 1)))
      (.integer 6 3))
    (.integer 7 5)

theorem exact_wrappedProduct : wrappedProduct.Exact 5 (-(9223372036854775807 + 1) * 3 - 5) :=
  .combine 0 rfl
    (.combine 1 rfl (.neg 2 (.combine 3 rfl (.literal 4 9223372036854775807) (.literal 5 1)))
      (.literal 6 3))
    (.literal 7 5)

/-- The tree of the least integer divided by minus one. -/
def greatestQuotient : Node :=
  .infixExpression 0 .div (.integer 1 (-9223372036854775808)) (.integer 2 (-1))

/-- An expression that wraps around twice on the way, and the quotient that does not fit. -/
theorem eval_exact_wrappedProduct :
    let m := new (Heap.empty.newScope none).2 5 true
    (wrappedProduct.Exact 5 (-(9223372036854775807 + 1) * 3 - 5) ∧ 5 ≤ m.limit - m.depth ∧
        ∃ id n, (m.eval wrappedProduct 0).1 = .ok (some (.integer id n)) ∧
          n.toInt = 9223372036854775803) ∧
      ∃ e q, (m.eval greatestQuotient 0).1 = .ok (some (.integer e q)) ∧
        q.toInt = -9223372036854775808 := by
  intro m
  obtain ⟨hsum, hquotient⟩ := eval_exact m 0
  have hle : 5 ≤ m.limit - m.depth := by decide
  obtain ⟨id, n, hvalue, hn⟩ := (hsum _ _ _ exact_wrappedProduct).1 hle
  obtain ⟨v, hdiv, _, hne⟩ := hquotient 0 (.integer 1 (-9223372036854775808)) (.integer 2 (-1))
    (.made 0) (-9223372036854775808) _ (.made 1) (-1) _ rfl rfl
  obtain ⟨e, q, rfl, hq⟩ := hne (by decide)
  exact ⟨⟨exact_wrappedProduct, hle, id, n, hvalue, hn.trans (by decide)⟩, e, q, hdiv,
    hq.trans (by decide)⟩

end Machine

end TraceTree

import TraceTree.Grammar.Recogniser
import TraceTree.Syntax.Formula
import TraceTree.Syntax.Node

set_option autoImplicit false

/-! # Reading source text

A source text is matched against the grammar and the pairs of the match are made into a syntax
tree. Whatever is read, the root is a program: a single statement becomes a program of one
statement, and a single expression is first made a statement.

Every node made gets the next free number, and the span it was read from is kept in a table. The
span of an operator expression reaches from its leftmost to its rightmost part. Parentheses leave
no node and do not widen a span.

Once the grammar has matched, only an integer literal beyond the range of 64 bits can still be
refused. The cause `malformed` would mean that a pair had other parts than its rule can make. -/

namespace TraceTree

/-! ## Errors -/

/-- Why a source text cannot be read. -/
inductive ParseCause where
  /-- The grammar does not match; one of the things named was expected. -/
  | mismatch (expected : List String)
  /-- An integer literal is out of range. -/
  | integerTooLarge (digits : String)
  /-- A pair of this rule does not have the parts that the rule makes. -/
  | malformed (rule : Rule)
  /-- A failure found elsewhere, in the words of its finder. -/
  | stated (message : String)

/-- A failure to read a source text, with its place. -/
structure ParseError where
  cause : ParseCause
  span : Span

/-- The wording of a failure. -/
def ParseCause.message : ParseCause → String
  | mismatch expected => Attempts.message expected
  | integerTooLarge digits => "invalid integer literal '" ++ digits ++ "'"
  | malformed rule => "missing part of " ++ rule.label
  | stated message => message

/-! ## Making nodes -/

/-- What has been made so far: the next free number, and the span of each node made, in the order
of the numbers. -/
structure Draft where
  next : NodeId
  spans : Array Span

/-- Making nodes, which can fail. -/
abbrev Build := StateT Draft (Except ParseError)

/-- A node and the span it was read from. -/
structure Part where
  node : Node
  span : Span

/-- Make a node. -/
def Build.alloc (span : Span) (make : NodeId → Node) : Build Part := fun draft =>
  .ok (⟨make draft.next, span⟩, ⟨draft.next + 1, draft.spans.push span⟩)

/-- Give up on a pair with unexpected parts. -/
def Build.malformed {α : Type} (p : Pair) : Build α :=
  throw ⟨.malformed p.rule, p.span⟩

/-- The value of a sequence of decimal digits. -/
def decimalValue (digits : List Char) : Nat :=
  digits.foldl (fun n d => 10 * n + (d.toNat - '0'.toNat)) 0

/-- The greatest integer of the language, one less than the sixty-third power of two. -/
def maxInteger : Nat := 9223372036854775807

/-- The operator that a rule in front of an operand stands for. -/
def Rule.prefixOp? : Rule → Option PrefixOp
  | .bang => some .not
  | .neg => some .neg
  | _ => none

/-- The operator that a rule between two operands stands for. -/
def Rule.infixOp? : Rule → Option InfixOp
  | .eq => some .eq
  | .notEq => some .notEq
  | .lt => some .lt
  | .gt => some .gt
  | .add => some .add
  | .sub => some .sub
  | .mul => some .mul
  | .div => some .div
  | _ => none

/-- Put the prefix operators before an operand around it, the innermost first. Each comes with the
offset where it begins. -/
def applyPrefixes : List (PrefixOp × Nat) → Part → Build Part
  | [], part => pure part
  | (op, start) :: outer, part => do
    let whole ← Build.alloc ⟨start, part.span.stop⟩ (.prefixExpression · op part.node)
    applyPrefixes outer whole

/-- Make the nodes of an arranged sequence of operands. -/
def Formula.build : Formula Part → Build Part
  | .operand part => pure part
  | .binary op left right => do
    let l ← left.build
    let r ← right.build
    Build.alloc ⟨l.span.start, r.span.stop⟩ (.infixExpression · op l.node r.node)

/-- What stands to the left of the next part of an expression: the finished operands with the
operator after them, then prefix operators (the innermost first), then the operand begun. -/
structure Pending where
  left : Option (Formula Part × InfixOp)
  prefixes : List (PrefixOp × Nat)
  operand : Option Part

/-- Nothing has been read of the expression. -/
def Pending.empty : Pending := ⟨none, [], none⟩

/-- The formula up to and including the operand begun. -/
def Pending.finish (pending : Pending) (operand : Part) : Build (Formula Part) := do
  let whole ← applyPrefixes pending.prefixes operand
  match pending.left with
  | none => pure (.operand whole)
  | some (formula, op) => pure (formula.extend op whole)

/-- The nodes of parts. -/
def nodesOf (parts : List Part) : List Node := parts.map (·.node)

/-- An identifier node for a pair. -/
def Pair.toIdentifier (p : Pair) : Build Part :=
  Build.alloc p.span (.identifier · (String.ofList p.text))

mutual

/-- The statement that a pair holds. -/
def Pair.toStatement : Pair → Build Part
  | .mk .letStatement span _ [_, name, value] => do
    let target ← name.toIdentifier
    let bound ← value.toExpression
    Build.alloc span (.letStatement · target.node bound.node)
  | .mk .returnStatement span _ [_, value] => do
    let result ← value.toExpression
    Build.alloc span (.returnStatement · result.node)
  | .mk .expressionStatement span _ [expression] => do
    let inner ← expression.toExpression
    Build.alloc span (.expressionStatement · inner.node)
  | p => Build.malformed p

/-- The statements among a list of pairs. -/
def Pair.toStatements : List Pair → Build (List Part)
  | [] => pure []
  | .mk .endOfInput _ _ _ :: more => Pair.toStatements more
  | p :: more => do
    let statement ← p.toStatement
    let others ← Pair.toStatements more
    pure (statement :: others)

/-- The block that a pair holds. -/
def Pair.toBlock : Pair → Build Part
  | .mk .block span _ parts => do
    let statements ← Pair.toStatements parts
    Build.alloc span (.block · (nodesOf statements))
  | p => Build.malformed p

/-- The expression that a pair holds. -/
def Pair.toExpression : Pair → Build Part
  | .mk .expression span text parts => Pair.toFormula (.mk .expression span text []) .empty parts
  | p => Build.malformed p

/-- The expression that consists of what is pending and the parts still to come; `whole` is the
pair of the expression. -/
def Pair.toFormula (whole : Pair) (pending : Pending) : List Pair → Build Part
  | [] =>
    match pending.operand with
    | none => Build.malformed whole
    | some operand => do
      let formula ← pending.finish operand
      formula.build
  | .mk r span text parts :: more =>
    match pending.operand, r.prefixOp?, r.infixOp? with
    | none, some op, _ =>
      Pair.toFormula whole { pending with prefixes := (op, span.start) :: pending.prefixes } more
    | none, none, _ => do
      let operand ← Pair.toPrimary (.mk r span text parts)
      Pair.toFormula whole { pending with operand := some operand } more
    | some operand, _, some op => do
      let formula ← pending.finish operand
      Pair.toFormula whole ⟨some (formula, op), [], none⟩ more
    | some operand, _, none =>
      if r = .callArgs then do
        let arguments ← Pair.toExpressions parts
        let result ← Build.alloc ⟨operand.span.start, span.stop⟩
          (.call · operand.node (nodesOf arguments))
        Pair.toFormula whole { pending with operand := some result } more
      else Build.malformed whole

/-- The expressions of a list of pairs. -/
def Pair.toExpressions : List Pair → Build (List Part)
  | [] => pure []
  | p :: more => do
    let expression ← p.toExpression
    let others ← Pair.toExpressions more
    pure (expression :: others)

/-- The operand that a pair holds. -/
def Pair.toPrimary : Pair → Build Part
  | .mk .expression span text parts => Pair.toFormula (.mk .expression span text []) .empty parts
  | .mk .integer span text _ =>
    let value := decimalValue text
    if value ≤ maxInteger then Build.alloc span (.integer · (Int64.ofNat value))
    else throw ⟨.integerTooLarge (String.ofList text), span⟩
  | .mk .boolean span text _ => Build.alloc span (.boolean · (text == "true".toList))
  | .mk .identifier span text _ => Build.alloc span (.identifier · (String.ofList text))
  | .mk .ifExpression span _ [_, condition, consequence] => do
    let test ← condition.toExpression
    let chosen ← consequence.toBlock
    Build.alloc span (.ifExpression · test.node chosen.node none)
  | .mk .ifExpression span _ [_, condition, consequence, _, alternative] => do
    let test ← condition.toExpression
    let chosen ← consequence.toBlock
    let other ← alternative.toBlock
    Build.alloc span (.ifExpression · test.node chosen.node (some other.node))
  | .mk .functionLiteral span _ [_, .mk _ _ _ names, body] => do
    let parameters ← names.mapM Pair.toIdentifier
    let code ← body.toBlock
    Build.alloc span (.functionLiteral · (nodesOf parameters) code.node)
  | p => Build.malformed p

end

/-! ## Reading -/

/-- What a source text is expected to be. -/
inductive Level where
  | program
  | statement
  | expression
  deriving DecidableEq

/-- The rule that a whole source text has to match. -/
def Level.rule : Level → Rule
  | program => .program
  | statement => .statementInput
  | expression => .expressionInput

/-- A source text that has been read: the tree, and the span of each node from number `first` on. -/
structure Parsed where
  root : Node
  first : NodeId
  spans : Array Span

namespace Parsed

/-- The span that a node was read from. -/
def span? (p : Parsed) (id : NodeId) : Option Span :=
  if p.first ≤ id then p.spans[id - p.first]? else none

/-- The first number not used by the tree. -/
def next (p : Parsed) : NodeId := p.first + p.spans.size

end Parsed

/-- The program that the pair of an entry rule holds, in a text of `size` bytes. -/
def Level.build (level : Level) (size : Nat) (p : Pair) : Build Part :=
  match level, p with
  | .program, .mk .program span _ parts => do
    let statements ← Pair.toStatements parts
    Build.alloc span (.program · (nodesOf statements))
  | .statement, .mk .statementInput _ _ (item :: _) => do
    let only ← item.toStatement
    Build.alloc ⟨0, size⟩ (.program · [only.node])
  | .expression, .mk .expressionInput _ _ (item :: _) => do
    let inner ← item.toExpression
    let only ← Build.alloc inner.span (.expressionStatement · inner.node)
    Build.alloc ⟨0, size⟩ (.program · [only.node])
  | _, p => Build.malformed p

/-- Read a source text, numbering the nodes from `first` on. -/
def parseAt (first : NodeId) (source : String) (level : Level) : Except ParseError Parsed :=
  match level.rule.recognise source.toList with
  | .matched [p] _ _ => do
    let (root, draft) ← level.build source.utf8ByteSize p ⟨first, #[]⟩
    pure ⟨root.node, first, draft.spans⟩
  | .failed attempts =>
    .error ⟨.mismatch (attempts.expected.map Rule.label), ⟨attempts.offset, attempts.offset⟩⟩
  | _ => .error ⟨.malformed level.rule, ⟨0, 0⟩⟩

end TraceTree

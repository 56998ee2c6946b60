import TraceTree.Syntax.Operator

set_option autoImplicit false

/-! # Syntax nodes

A node of a syntax tree carries a number that tells it apart from every other node: two nodes with
equal content, written at two places, have different numbers. Traces refer to nodes by their
numbers. `erase` forgets the numbers, so two trees have the same form when their erasures are
equal.

The types do not say which kind of node may stand where: a parsed tree keeps to the grammar, but a
tree can also be put together by hand. -/

namespace TraceTree

/-- What tells a node apart from all others. -/
abbrev NodeId := Nat

/-- A node of a syntax tree. -/
inductive Node where
  | program (id : NodeId) (statements : List Node)
  | letStatement (id : NodeId) (name value : Node)
  | returnStatement (id : NodeId) (value : Node)
  | expressionStatement (id : NodeId) (expression : Node)
  | block (id : NodeId) (statements : List Node)
  | identifier (id : NodeId) (name : String)
  | boolean (id : NodeId) (value : Bool)
  | integer (id : NodeId) (value : Int64)
  | prefixExpression (id : NodeId) (op : PrefixOp) (right : Node)
  | infixExpression (id : NodeId) (op : InfixOp) (left right : Node)
  | ifExpression (id : NodeId) (condition consequence : Node) (alternative : Option Node)
  | functionLiteral (id : NodeId) (parameters : List Node) (body : Node)
  | call (id : NodeId) (function : Node) (arguments : List Node)

namespace Node

/-- The number of a node. -/
def id : Node → NodeId
  | program id _ | letStatement id _ _ | returnStatement id _ | expressionStatement id _
  | block id _ | identifier id _ | boolean id _ | integer id _ | prefixExpression id _ _
  | infixExpression id _ _ _ | ifExpression id _ _ _ | functionLiteral id _ _ | call id _ _ => id

/-- Whether two nodes are one and the same. -/
def is (a b : Node) : Bool := a.id == b.id

/-- The name of a node's kind. -/
def typeName : Node → String
  | program _ _ => "Program"
  | letStatement _ _ _ => "LetStatement"
  | returnStatement _ _ => "ReturnStatement"
  | expressionStatement _ _ => "ExpressionStatement"
  | block _ _ => "BlockStatement"
  | identifier _ _ => "Identifier"
  | boolean _ _ => "Boolean"
  | integer _ _ => "IntegerLiteral"
  | prefixExpression _ _ _ => "PrefixExpression"
  | infixExpression _ _ _ _ => "InfixExpression"
  | ifExpression _ _ _ _ => "IfExpression"
  | functionLiteral _ _ _ => "FunctionLiteral"
  | call _ _ _ => "CallExpression"

/-- The name that an identifier spells. -/
def name? : Node → Option String
  | identifier _ name => some name
  | _ => none

/-- The nodes in the fields of a node, in the order of the fields. -/
def children : Node → List Node
  | program _ statements | block _ statements => statements
  | letStatement _ name value => [name, value]
  | returnStatement _ value => [value]
  | expressionStatement _ expression => [expression]
  | identifier _ _ | boolean _ _ | integer _ _ => []
  | prefixExpression _ _ right => [right]
  | infixExpression _ _ left right => [left, right]
  | ifExpression _ condition consequence alternative =>
    condition :: consequence :: alternative.toList
  | functionLiteral _ parameters body => parameters ++ [body]
  | call _ function arguments => function :: arguments

/-! ## Walking a tree -/

mutual

/-- A node and all nodes below it, each with its depth. -/
def preorderFrom (depth : Nat) : Node → List (Nat × Node)
  | program id statements =>
    (depth, program id statements) :: preorderAll (depth + 1) statements
  | letStatement id name value =>
    (depth, letStatement id name value) ::
      (preorderFrom (depth + 1) name ++ preorderFrom (depth + 1) value)
  | returnStatement id value =>
    (depth, returnStatement id value) :: preorderFrom (depth + 1) value
  | expressionStatement id expression =>
    (depth, expressionStatement id expression) :: preorderFrom (depth + 1) expression
  | block id statements => (depth, block id statements) :: preorderAll (depth + 1) statements
  | identifier id name => [(depth, identifier id name)]
  | boolean id value => [(depth, boolean id value)]
  | integer id value => [(depth, integer id value)]
  | prefixExpression id op right =>
    (depth, prefixExpression id op right) :: preorderFrom (depth + 1) right
  | infixExpression id op left right =>
    (depth, infixExpression id op left right) ::
      (preorderFrom (depth + 1) left ++ preorderFrom (depth + 1) right)
  | ifExpression id condition consequence none =>
    (depth, ifExpression id condition consequence none) ::
      (preorderFrom (depth + 1) condition ++ preorderFrom (depth + 1) consequence)
  | ifExpression id condition consequence (some alternative) =>
    (depth, ifExpression id condition consequence (some alternative)) ::
      (preorderFrom (depth + 1) condition ++ preorderFrom (depth + 1) consequence ++
        preorderFrom (depth + 1) alternative)
  | functionLiteral id parameters body =>
    (depth, functionLiteral id parameters body) ::
      (preorderAll (depth + 1) parameters ++ preorderFrom (depth + 1) body)
  | call id function arguments =>
    (depth, call id function arguments) ::
      (preorderFrom (depth + 1) function ++ preorderAll (depth + 1) arguments)

/-- The nodes of a list and all nodes below them, each with its depth. -/
def preorderAll (depth : Nat) : List Node → List (Nat × Node)
  | [] => []
  | node :: nodes => preorderFrom depth node ++ preorderAll depth nodes

end

/-- A node and all nodes below it, each with its depth: a node before its children, and these in
the order of the fields. -/
def preorder (root : Node) : List (Nat × Node) := preorderFrom 0 root

/-! ## Form -/

mutual

/-- The tree with every number replaced by zero. -/
def erase : Node → Node
  | program _ statements => program 0 (eraseAll statements)
  | letStatement _ name value => letStatement 0 (erase name) (erase value)
  | returnStatement _ value => returnStatement 0 (erase value)
  | expressionStatement _ expression => expressionStatement 0 (erase expression)
  | block _ statements => block 0 (eraseAll statements)
  | identifier _ name => identifier 0 name
  | boolean _ value => boolean 0 value
  | integer _ value => integer 0 value
  | prefixExpression _ op right => prefixExpression 0 op (erase right)
  | infixExpression _ op left right => infixExpression 0 op (erase left) (erase right)
  | ifExpression _ condition consequence none =>
    ifExpression 0 (erase condition) (erase consequence) none
  | ifExpression _ condition consequence (some alternative) =>
    ifExpression 0 (erase condition) (erase consequence) (some (erase alternative))
  | functionLiteral _ parameters body => functionLiteral 0 (eraseAll parameters) (erase body)
  | call _ function arguments => call 0 (erase function) (eraseAll arguments)

/-- The trees with every number replaced by zero. -/
def eraseAll : List Node → List Node
  | [] => []
  | node :: nodes => erase node :: eraseAll nodes

end

mutual

/-- Whether two trees have the same form. -/
def sameForm : Node → Node → Bool
  | program _ xs, program _ ys => sameForms xs ys
  | letStatement _ n v, letStatement _ m w => sameForm n m && sameForm v w
  | returnStatement _ v, returnStatement _ w => sameForm v w
  | expressionStatement _ e, expressionStatement _ f => sameForm e f
  | block _ xs, block _ ys => sameForms xs ys
  | identifier _ a, identifier _ b => a == b
  | boolean _ a, boolean _ b => a == b
  | integer _ a, integer _ b => a == b
  | prefixExpression _ o r, prefixExpression _ p s => o == p && sameForm r s
  | infixExpression _ o l r, infixExpression _ p k s => o == p && sameForm l k && sameForm r s
  | ifExpression _ c t none, ifExpression _ d u none => sameForm c d && sameForm t u
  | ifExpression _ c t (some e), ifExpression _ d u (some f) =>
    sameForm c d && sameForm t u && sameForm e f
  | functionLiteral _ ps b, functionLiteral _ qs d => sameForms ps qs && sameForm b d
  | call _ f xs, call _ g ys => sameForm f g && sameForms xs ys
  | _, _ => false

/-- Whether two lists of trees have the same forms. -/
def sameForms : List Node → List Node → Bool
  | [], [] => true
  | x :: xs, y :: ys => sameForm x y && sameForms xs ys
  | _, _ => false

end

end Node

end TraceTree

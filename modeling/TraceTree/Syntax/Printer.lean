import TraceTree.Syntax.Node

set_option autoImplicit false

/-! # The canonical text of a syntax tree

Every operator expression stands in parentheses and every expression statement ends with a
semicolon, so the text shows the structure of the tree and can be read back. -/

namespace TraceTree.Node

/-- The texts with a separator between them. -/
def joined (sep : String) : List String → String
  | [] => ""
  | [text] => text
  | text :: more => text ++ sep ++ joined sep more

mutual

/-- The canonical text of a tree. -/
def text : Node → String
  | program _ statements => joined "\n" (texts statements)
  | letStatement _ name value => "let " ++ text name ++ " = " ++ text value ++ ";"
  | returnStatement _ value => "return " ++ text value ++ ";"
  | expressionStatement _ expression => text expression ++ ";"
  | block _ [] => "\x7b \x7d"
  | block _ statements => "\x7b " ++ joined " " (texts statements) ++ " \x7d"
  | identifier _ name => name
  | boolean _ value => if value then "true" else "false"
  | integer _ value => toString value.toInt
  | prefixExpression _ op right => "(" ++ op.text ++ text right ++ ")"
  | infixExpression _ op left right =>
    "(" ++ text left ++ " " ++ op.text ++ " " ++ text right ++ ")"
  | ifExpression _ condition consequence none =>
    "if " ++ text condition ++ " " ++ text consequence
  | ifExpression _ condition consequence (some alternative) =>
    "if " ++ text condition ++ " " ++ text consequence ++ " else " ++ text alternative
  | functionLiteral _ parameters body =>
    "fn(" ++ joined ", " (texts parameters) ++ ") " ++ text body
  | call _ function arguments => text function ++ "(" ++ joined ", " (texts arguments) ++ ")"

/-- The canonical texts of several trees. -/
def texts : List Node → List String
  | [] => []
  | node :: nodes => text node :: texts nodes

end

end TraceTree.Node

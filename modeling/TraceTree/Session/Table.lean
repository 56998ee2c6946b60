import TraceTree.Text.Split

set_option autoImplicit false

/-! # Tables

Tables of three columns, aligned at the left, with a rule under the optional header. The width of a
column is the greatest number of bytes in it, while cells are filled up by counting characters, so
a column with text beyond ASCII is wider than it needs to be. No line ends with a blank. -/

namespace TraceTree

/-- A row of a table. -/
structure Row where
  first : String
  second : String
  third : String
  deriving DecidableEq

namespace Table

/-- The greatest number of bytes among some cells. -/
def widthOf (cells : List String) : Nat := (cells.map String.utf8ByteSize).foldl max 0

/-- A line of a table whose first two columns have the given widths. -/
def line (first second : Nat) (row : Row) : String :=
  Text.trimEnd (Text.padRight first row.first ++ "  " ++ Text.padRight second row.second ++ "  " ++
    row.third) ++ "\n"

/-- A table. -/
def render (header : Option Row) (rows : List Row) : String :=
  let all := header.toList ++ rows
  let first := widthOf (all.map (·.first))
  let second := widthOf (all.map (·.second))
  let third := widthOf (all.map (·.third))
  let head :=
    match header with
    | none => ""
    | some row =>
      line first second row ++
        String.ofList (List.replicate (first + second + third + 4) '-') ++ "\n"
  head ++ String.join (rows.map (line first second))

end Table

end TraceTree

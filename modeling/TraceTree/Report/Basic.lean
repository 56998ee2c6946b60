import TraceTree.Eval.Machine
import TraceTree.Report.Excerpt
import TraceTree.Syntax.Reader

set_option autoImplicit false

/-! # Reports of failures

How a failed run is reported to a reader. A text that cannot be read is shown with its failing
place; an evaluation that was given up is reported on one line.

The label of an excerpt takes its bounds from a span, which counts bytes. An empty span is widened
by one, so that the label has something to point at. -/

namespace TraceTree

/-- Why a run has no result. -/
inductive Failure where
  | parse (error : ParseError)
  | overflow (overflow : Overflow)

/-- The wording of a failure. -/
def Failure.message : Failure → String
  | parse error => error.cause.message
  | overflow o => o.message

/-- The title of a report. -/
def ParseCause.title : ParseCause → String
  | integerTooLarge _ => "Invalid integer literal"
  | _ => "Syntax error"

/-- The label for an error in a text of `size` bytes. -/
def ParseError.label (e : ParseError) (size : Nat) : Label :=
  let start := min e.span.start size
  let stop := max (max start (min e.span.stop size)) (min (start + 1) size)
  ⟨start, stop, e.cause.message⟩

/-- The lines of the report of a text that cannot be read. -/
def ParseError.report (e : ParseError) (source : String) : List (List Piece) :=
  let text := source.toList
  let label := e.label source.utf8ByteSize
  let title : List Piece := [.painted .red "Error:", .bare (" " ++ e.cause.title)]
  if label.fits text.length then title :: label.excerpt "<input>" text else [title]

/-- The report of a failure, in colour or not. -/
def Failure.report (f : Failure) (source : String) (inColour : Bool) : String :=
  match f with
  | parse error => writeLines inColour (error.report source)
  | overflow o => "Evaluation aborted: " ++ o.message ++ "\n"

end TraceTree

import TraceTree.Main
import TraceTree.Session.Highlight
import TraceTree.Proofs.Diagram.Annotation
import TraceTree.Proofs.Diagram.Completeness
import TraceTree.Proofs.Diagram.Numbering
import TraceTree.Proofs.Diagram.Sharing
import TraceTree.Proofs.Diagram.Shortening
import TraceTree.Proofs.Eval.Arithmetic
import TraceTree.Proofs.Eval.Footprint
import TraceTree.Proofs.Grammar.Entries
import TraceTree.Proofs.Report.Placing
import TraceTree.Proofs.Session.Agreement
import TraceTree.Proofs.Session.Brackets
import TraceTree.Proofs.Session.Continuation
import TraceTree.Proofs.Session.Forgetting
import TraceTree.Proofs.Session.Naming
import TraceTree.Proofs.Session.Registration
import TraceTree.Proofs.Syntax.Alternatives
import TraceTree.Proofs.Syntax.Layout
import TraceTree.Proofs.Syntax.Placement
import TraceTree.Proofs.Syntax.Precedence
import TraceTree.Proofs.Syntax.Refusal
import TraceTree.Proofs.Syntax.RoundTrip
import TraceTree.Proofs.Trace.Activation
import TraceTree.Proofs.Trace.Fault
import TraceTree.Proofs.Trace.Listing
import TraceTree.Proofs.Trace.Scoping
import TraceTree.Proofs.Value.History
import TraceTree.Proofs.Workspace.Drawings
import TraceTree.Proofs.Workspace.Escape
import TraceTree.Proofs.Workspace.Faults
import TraceTree.Proofs.Workspace.Identity
import TraceTree.Proofs.Workspace.Splitting
import TraceTree.Proofs.Workspace.Trees

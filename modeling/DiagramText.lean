import DiagramText.Command
import DiagramText.Main
import DiagramText.Proofs.Ahead
import DiagramText.Proofs.Collected
import DiagramText.Proofs.Comments
import DiagramText.Proofs.Completion
import DiagramText.Proofs.Concatenation
import DiagramText.Proofs.Consumption
import DiagramText.Proofs.Coverage
import DiagramText.Proofs.Dump
import DiagramText.Proofs.Enclosed
import DiagramText.Proofs.Failures
import DiagramText.Proofs.Faithful
import DiagramText.Proofs.Fences
import DiagramText.Proofs.Interrupted
import DiagramText.Proofs.Layout
import DiagramText.Proofs.Literals
import DiagramText.Proofs.Names
import DiagramText.Proofs.Nested
import DiagramText.Proofs.Nesting
import DiagramText.Proofs.Preorder
import DiagramText.Proofs.Quoting
import DiagramText.Proofs.Report
import DiagramText.Proofs.Reprint
import DiagramText.Proofs.Separation
import DiagramText.Proofs.Tokens
import DiagramText.Proofs.Typing
import DiagramText.Proofs.Uncommented
import DiagramText.Proofs.Unfinished
import DiagramText.Proofs.WellFormed
import DiagramText.Tree.Same

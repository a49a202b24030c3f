import Pegboard.Definition.Piece
import Pegboard.Main
import Pegboard.Proofs.Regex.Extent
import Pegboard.Workbench
import Pegboard.Proofs.Match.Step
import Pegboard.Proofs.Match.Derivation
import Pegboard.Proofs.Match.Bisimulation
import Pegboard.Proofs.Match.Closed
import Pegboard.Proofs.Match.Tiling
import Pegboard.Proofs.Match.Shift
import Pegboard.Proofs.Match.Answers
import Pegboard.Proofs.Match.LeftRecursion
import Pegboard.Proofs.Expr.Reach
import Pegboard.Proofs.Expr.Freeze
import Pegboard.Proofs.Expr.Link
import Pegboard.Proofs.Definition.Block
import Pegboard.Proofs.Definition.Assembly
import Pegboard.Proofs.Definition.Graph
import Pegboard.Proofs.Definition.Linked
import Pegboard.Proofs.Regex.Greedy
import Pegboard.Proofs.Syntax.Token
import Pegboard.Proofs.Syntax.Reader
import Pegboard.Proofs.Syntax.Bootstrap
import Pegboard.Proofs.Syntax.Simulation
import Pegboard.Proofs.Syntax.Descent
import Pegboard.Proofs.Syntax.Depth
import Pegboard.Proofs.Grammar.Limit
import Pegboard.Proofs.Grammar.Reading
import Pegboard.Proofs.Grammar.Extension
import Pegboard.Proofs.Syntax.Meaning
import Pegboard.Proofs.Grammar.Compile
import Pegboard.Proofs.Syntax.Printing
import Pegboard.Proofs.Syntax.Rendered
import Pegboard.Proofs.Definition.Order
import Pegboard.Proofs.Grammar.Isomorphism
import Pegboard.Proofs.Grammar.RoundTrip
import Pegboard.Proofs.Grammar.SelfDescription
import Pegboard.Proofs.Grammar.Termination
import Pegboard.Proofs.Syntax.Language
import Pegboard.Proofs.Definition.Rendering
import Pegboard.Proofs.Syntax.Lexing
import Pegboard.Proofs.Syntax.Pieces
import Pegboard.Proofs.Syntax.Rereading
import Pegboard.Proofs.Syntax.Gaps
import Pegboard.Proofs.Syntax.Relayout
import Pegboard.Proofs.Grammar.Layout
import Pegboard.Proofs.Grammar.Concatenation
import Pegboard.Proofs.Syntax.Lines
import Pegboard.Proofs.Grammar.Reordering
import Pegboard.Proofs.Expr.Edit
import Pegboard.Proofs.Command.Args
import Pegboard.Proofs.Command.Outcome
import Pegboard.Proofs.Definition.Unfolding
import Pegboard.Proofs.Definition.Wording
import Pegboard.Proofs.Grammar.WellFormed
import Pegboard.Proofs.Syntax.Faults
import Pegboard.Proofs.Grammar.Refusal
import Pegboard.Proofs.Syntax.Truncation
import Pegboard.Proofs.Grammar.Stopping
import Pegboard.Proofs.Syntax.Grouping
import Pegboard.Proofs.Grammar.Parentheses
import Pegboard.Proofs.Match.Desugaring
import Pegboard.Proofs.Node.Likeness
import Pegboard.Proofs.Node.Listing
import Pegboard.Proofs.Syntax.Decoding
import Pegboard.Proofs.Expr.Frozen
import Pegboard.Proofs.Node.Outline
import Pegboard.Proofs.Node.Printed
import Pegboard.Proofs.Expr.Worklist
import Pegboard.Proofs.Definition.Pending
import Pegboard.Proofs.Match.Unfolding
import Pegboard.Proofs.Text.Position

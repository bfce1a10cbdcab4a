import Stencil.Main
import Stencil.Proofs.Arguments
import Stencil.Proofs.Command.Outcome
import Stencil.Proofs.Eval.Comparison
import Stencil.Proofs.Eval.Ending
import Stencil.Proofs.Expr.Acceptance
import Stencil.Proofs.Expr.ArgumentGrammar
import Stencil.Proofs.Expr.Height
import Stencil.Proofs.Expr.Munch
import Stencil.Proofs.Expr.Nesting
import Stencil.Proofs.Expr.Offender
import Stencil.Proofs.Expr.Ranges
import Stencil.Proofs.Expr.Size
import Stencil.Proofs.Expr.StringTokens
import Stencil.Proofs.Scope.Meaning
import Stencil.Proofs.Scope.Occurrences
import Stencil.Proofs.Template.Balance
import Stencil.Proofs.Template.Blockless
import Stencil.Proofs.Template.Blocks
import Stencil.Proofs.Template.Comments
import Stencil.Proofs.Template.Current
import Stencil.Proofs.Template.DepthLimit
import Stencil.Proofs.Template.Dispatch
import Stencil.Proofs.Template.Display
import Stencil.Proofs.Template.Label
import Stencil.Proofs.Template.Loading
import Stencil.Proofs.Template.Malformed
import Stencil.Proofs.Template.MethodTable
import Stencil.Proofs.Template.Tiling
import Stencil.Proofs.Text.Spans
import Stencil.Proofs.Value.Sequences
import Stencil.Tag.Named

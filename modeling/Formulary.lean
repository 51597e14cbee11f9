import Formulary.Formula.Inspect
import Formulary.Main
import Formulary.Proofs.Bindings.Conversion
import Formulary.Proofs.Command.Report
import Formulary.Proofs.Diagnostic.Position
import Formulary.Proofs.Evaluation.Budget
import Formulary.Proofs.Evaluation.Declarations
import Formulary.Proofs.Evaluation.Exact
import Formulary.Proofs.Evaluation.Meaning
import Formulary.Proofs.Evaluation.Visits
import Formulary.Proofs.Expr.Bookkeeping
import Formulary.Proofs.Expr.Composition
import Formulary.Proofs.Expr.Identity
import Formulary.Proofs.Expr.Nesting
import Formulary.Proofs.Expr.Offender
import Formulary.Proofs.Expr.Parentheses
import Formulary.Proofs.Json.Grammar
import Formulary.Proofs.Json.Reading
import Formulary.Proofs.Limits.CutOff
import Formulary.Proofs.Limits.Validity
import Formulary.Proofs.Rule.Batch
import Formulary.Proofs.Stored.RoundTrip
import Formulary.Proofs.Token.Forbidden

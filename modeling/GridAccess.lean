import GridAccess.Alignment
import GridAccess.Ascending
import GridAccess.Binary64.Basic
import GridAccess.Binary64.Shortest
import GridAccess.Binary64.Text
import GridAccess.Dimension
import GridAccess.Equation.Basic
import GridAccess.Equation.LoopOrder
import GridAccess.Error
import GridAccess.Expr.Affine
import GridAccess.Expr.Basic
import GridAccess.Expr.Canonical
import GridAccess.Expr.Order
import GridAccess.Expr.Printer
import GridAccess.Expr.Relation
import GridAccess.Expr.Search
import GridAccess.Expr.Substitution
import GridAccess.Field
import GridAccess.Grid.Decoding
import GridAccess.Grid.Description
import GridAccess.Grid.Encoding
import GridAccess.Grid.Resolved
import GridAccess.Json.Basic
import GridAccess.Json.Printer
import GridAccess.Json.Reader
import GridAccess.Json.Token
import GridAccess.Literal
import GridAccess.Precedence.Arrangement
import GridAccess.Precedence.Graph
import GridAccess.Precedence.Linearization
import GridAccess.Subdomain
import GridAccess.Text.Invisible
import GridAccess.Text.Quoted
import GridAccess.Proofs.Expr.Equality
import GridAccess.Proofs.Literal.Congruence
import GridAccess.Proofs.Literal.Exact
import GridAccess.Proofs.Expr.Congruence
import GridAccess.Proofs.Expr.Value
import GridAccess.Proofs.Expr.Replacement
import GridAccess.Proofs.Expr.Trace
import GridAccess.Proofs.Expr.FoldValue
import GridAccess.Proofs.Expr.Inheritance
import GridAccess.Proofs.Expr.Affine
import GridAccess.Proofs.Expr.Relation
import GridAccess.Proofs.Subdomain
import GridAccess.Proofs.Alignment.Trace
import GridAccess.Proofs.Alignment.Value
import GridAccess.Proofs.Alignment.Recursion
import GridAccess.Proofs.Ascending
import GridAccess.Proofs.Precedence.Extension
import GridAccess.Proofs.Precedence.Graph
import GridAccess.Proofs.Precedence.Linearization
import GridAccess.Proofs.Precedence.Arrangement
import GridAccess.Proofs.Equation.LoopOrder
import GridAccess.Proofs.Equation.Ranking
import GridAccess.Proofs.Equation.Rearrangement
import GridAccess.Proofs.Precedence.Cycle
import GridAccess.Proofs.Expr.Comparison
import GridAccess.Proofs.Expr.Polynomial
import GridAccess.Proofs.Expr.NormalForm
import GridAccess.Proofs.Expr.Laws
import GridAccess.Proofs.Json.Token
import GridAccess.Proofs.Json.RoundTrip
import GridAccess.Proofs.Grid.RoundTrip
import GridAccess.Proofs.Except
import GridAccess.Proofs.Grid.Dimensions
import GridAccess.Proofs.Grid.Table
import GridAccess.Proofs.Grid.Fields
import GridAccess.Proofs.Grid.Subdomains
import GridAccess.Proofs.Grid.Resolution
import GridAccess.Proofs.Expr.Absence
import GridAccess.Proofs.Alignment.Calls
import GridAccess.Proofs.Expr.AffineValue
import GridAccess.Proofs.Expr.AffineExact
import GridAccess.Proofs.Expr.Regular
import GridAccess.Proofs.Expr.CanonicalNodes
import GridAccess.Proofs.Alignment.Shift
import GridAccess.Proofs.Expr.AtomMap
import GridAccess.Proofs.Alignment.Injective
import GridAccess.Proofs.Literal.Product
import GridAccess.Proofs.Expr.CanonicalAffine
import GridAccess.Proofs.Alignment.ShiftedRelation
import GridAccess.Proofs.Equation.Demands
import GridAccess.Proofs.Equation.AlignedOrder
import GridAccess.Proofs.Expr.CanonicalForm
import GridAccess.Proofs.Expr.CanonicalRelation
import GridAccess.Proofs.Expr.Accesses
import GridAccess.Proofs.Alignment.Restriction
import GridAccess.Proofs.Alignment.Spacing
import GridAccess.Proofs.Literal.Range
import GridAccess.Proofs.Expr.Occurrence
import GridAccess.Proofs.Equation.Searches
import GridAccess.Proofs.Expr.TopDown
import GridAccess.Proofs.Expr.Grouping
import GridAccess.Proofs.Precedence.Search
import GridAccess.Proofs.Precedence.Bookkeeping
import GridAccess.Proofs.Expr.AffinePolynomial
import GridAccess.Proofs.Expr.OperandOrder
import GridAccess.Proofs.Expr.PrintedForm
import GridAccess.Proofs.Expr.Legible
import GridAccess.Proofs.Expr.UniqueReading
import GridAccess.Proofs.Keys
import GridAccess.Proofs.Alignment.Nesting
import GridAccess.Proofs.Expr.Worklist
import GridAccess.Proofs.Expr.WorklistResult

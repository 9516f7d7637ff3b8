import QuantFamily.Table
import QuantFamily.Text.Blank
import QuantFamily.Text.Numeral
import QuantFamily.Text.Printable
import QuantFamily.Text.Folding
import QuantFamily.Text.Identifier
import QuantFamily.Text.Quoted
import QuantFamily.Decimal.Binary
import QuantFamily.Decimal.Shortest
import QuantFamily.Expr.Number
import QuantFamily.Expr.Value
import QuantFamily.Expr.Sequence
import QuantFamily.Expr.Operation
import QuantFamily.Expr.Call
import QuantFamily.Expr.Token
import QuantFamily.Expr.Term
import QuantFamily.Expr.Eval
import QuantFamily.Json
import QuantFamily.Edition
import QuantFamily.Formula.Attribute
import QuantFamily.Formula.Basic
import QuantFamily.Fault
import QuantFamily.Session
import QuantFamily.Formula.Name
import QuantFamily.Formula.Valuation
import QuantFamily.Formula.Define
import QuantFamily.Output.Prenex
import QuantFamily.Output.Gates
import QuantFamily.Output.Circuit
import QuantFamily.Output.Listing
import QuantFamily.Circuit.Basic
import QuantFamily.Circuit.Fault
import QuantFamily.Circuit.Simplify
import QuantFamily.Circuit.Order
import QuantFamily.Text.Line
import QuantFamily.Circuit.Reader
import QuantFamily.Circuit.Writer
import QuantFamily.Circuit.Convert
import QuantFamily.Output.Clauses
import QuantFamily.Language.Terminal
import QuantFamily.Language.Statement
import QuantFamily.Language.Reader
import QuantFamily.Language.Interpret
import QuantFamily.Request
import QuantFamily.CommandLine
import QuantFamily.Digest.Sha256
import QuantFamily.Decimal.Fixed
import QuantFamily.Benchmark.Value
import QuantFamily.Benchmark.Sample
import QuantFamily.Benchmark.Workload
import QuantFamily.Benchmark.Subject
import QuantFamily.Benchmark.Survey
import QuantFamily.Benchmark.Coverage
import QuantFamily.Benchmark.Round
import QuantFamily.Benchmark.Literal
import QuantFamily.Main
import QuantFamily.Proofs.Sequence
import QuantFamily.Proofs.Session.Calculus
import QuantFamily.Proofs.Session.Faults
import QuantFamily.Proofs.Valuation.Queue
import QuantFamily.Proofs.Valuation.Search
import QuantFamily.Proofs.Valuation.Loops
import QuantFamily.Proofs.Valuation.Pinned
import QuantFamily.Proofs.Block.Body
import QuantFamily.Proofs.Block.Batch
import QuantFamily.Proofs.Block.Taken
import QuantFamily.Proofs.Block.Naming
import QuantFamily.Proofs.State.Change
import QuantFamily.Proofs.State.WellFormed
import QuantFamily.Proofs.Text.Numeral
import QuantFamily.Proofs.Gate.Literals
import QuantFamily.Proofs.Gate.Text
import QuantFamily.Proofs.Gate.Log
import QuantFamily.Proofs.Gate.Board
import QuantFamily.Proofs.Gate.Meaning
import QuantFamily.Proofs.Circuit.Value
import QuantFamily.Proofs.Circuit.Represent
import QuantFamily.Proofs.Circuit.Pass
import QuantFamily.Proofs.Circuit.Clauses
import QuantFamily.Proofs.Circuit.Layout
import QuantFamily.Proofs.Circuit.Sheet
import QuantFamily.Proofs.Circuit.Quantified
import QuantFamily.Proofs.Circuit.Allotment
import QuantFamily.Proofs.Circuit.Converted
import QuantFamily.Proofs.Circuit.Pool
import QuantFamily.Proofs.Session.Frame
import QuantFamily.Proofs.Session.Follow
import QuantFamily.Proofs.Circuit.Complete
import QuantFamily.Proofs.Gate.Quantifier
import QuantFamily.Proofs.Gate.ReadBack
import QuantFamily.Proofs.Gate.Nesting
import QuantFamily.Proofs.Text.Shown
import QuantFamily.Proofs.Output.Draft
import QuantFamily.Proofs.Output.Requests
import QuantFamily.Proofs.Output.Independence
import QuantFamily.Proofs.Output.Conjunction
import QuantFamily.Proofs.Language.Sections
import QuantFamily.Proofs.State.Definition
import QuantFamily.Proofs.Visit.Levels
import QuantFamily.Proofs.Output.ClauseForm
import QuantFamily.Proofs.Visit.Order
import QuantFamily.Proofs.Visit.Queue
import QuantFamily.Proofs.Visit.Nested
import QuantFamily.Proofs.Output.Shape
import QuantFamily.Proofs.Gate.Writers
import QuantFamily.Proofs.Gate.Operands
import QuantFamily.Proofs.Output.Diagnosis
import QuantFamily.Proofs.Language.Lexemes
import QuantFamily.Proofs.Language.Agreement
import QuantFamily.Proofs.Language.Editions
import QuantFamily.Proofs.State.Grouping
import QuantFamily.Proofs.Circuit.Form
import QuantFamily.Proofs.Visit.Closure
import QuantFamily.Proofs.Expr.Scanning
import QuantFamily.Proofs.Expr.Literal
import QuantFamily.Proofs.Expr.Bound
import QuantFamily.Proofs.Block.Batch
import QuantFamily.Proofs.Valuation.Loops
import QuantFamily.Proofs.Gate.Scopes
import QuantFamily.Proofs.Language.Comments
import QuantFamily.Proofs.State.Permanence
import QuantFamily.Proofs.Circuit.Listing
import QuantFamily.Proofs.Circuit.Naming
import QuantFamily.Proofs.Circuit.RoundTrip
import QuantFamily.Proofs.Request.Arguments
import QuantFamily.Proofs.Gate.Occurrences
import QuantFamily.Proofs.Circuit.Places
import QuantFamily.Proofs.Block.Spelling
import QuantFamily.Proofs.Digest.Text
import QuantFamily.Proofs.Benchmark.Parts
import QuantFamily.Proofs.Benchmark.Separation
import QuantFamily.Proofs.Benchmark.Rearrangement

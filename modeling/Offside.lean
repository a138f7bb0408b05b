import Offside.Text.Letter
import Offside.Text.Bytes
import Offside.Text.Position
import Offside.Text.Escaped
import Offside.Decimal.Rounding
import Offside.Decimal.Notation
import Offside.Token
import Offside.Token.Lexeme
import Offside.Token.Longest
import Offside.Token.Cursor
import Offside.Token.Lexer
import Offside.Token.Scan
import Offside.Syntax.Tree
import Offside.Syntax.Source
import Offside.Syntax.Same
import Offside.Grammar.Reader
import Offside.Grammar.Expression
import Offside.Grammar.Statement
import Offside.Value
import Offside.Value.Dictionary
import Offside.Fault
import Offside.Store
import Offside.Store.Scope
import Offside.Value.Number
import Offside.Value.Container
import Offside.Value.Text
import Offside.Value.Equality
import Offside.Value.Operation
import Offside.Evaluation.Builtin
import Offside.Evaluation.Arguments
import Offside.Evaluation
import Offside.Machine
import Offside.CommandLine
import Offside.Main
import Offside.Proofs.Decimal.Bits
import Offside.Proofs.Decimal.RoundTrip
import Offside.Proofs.Value.Equality
import Offside.Proofs.Grammar.Rules
import Offside.Proofs.Grammar.Reading
import Offside.Proofs.Grammar.Shape
import Offside.Proofs.Grammar.ExpressionSoundness
import Offside.Proofs.Grammar.Lookahead
import Offside.Proofs.Grammar.StatementSoundness
import Offside.Proofs.Grammar.ExpressionCompleteness
import Offside.Proofs.Grammar.StatementCompleteness
import Offside.Proofs.Grammar.Exactness
import Offside.Proofs.Grammar.Locality
import Offside.Proofs.Grammar.ExpressionLocality
import Offside.Proofs.Grammar.ErrorPlaces
import Offside.Proofs.Token.Scanning
import Offside.Proofs.Token.Lexemes
import Offside.Proofs.Token.Steps
import Offside.Proofs.Token.Bookkeeping
import Offside.Proofs.Token.Locality
import Offside.Proofs.Token.Rescanning
import Offside.Proofs.Token.Values
import Offside.Proofs.Token.Lossless
import Offside.Proofs.Grammar.ExtraLines
import Offside.Proofs.Grammar.Concatenation
import Offside.Proofs.Grammar.Balance
import Offside.Proofs.Layout.BlankLines
import Offside.Proofs.Layout.WellFormed
import Offside.Proofs.Layout.Pieces
import Offside.Proofs.Layout.Rows
import Offside.Proofs.Layout.Respacing
import Offside.Proofs.Syntax.Printable
import Offside.Proofs.Syntax.ExpressionReading
import Offside.Proofs.Syntax.StatementReading
import Offside.Proofs.Syntax.RoundTrip
import Offside.Proofs.Syntax.Rereading
import Offside.Proofs.Store.Meets
import Offside.Proofs.Store.Contents
import Offside.Proofs.Store.Operations
import Offside.Proofs.Store.Frames
import Offside.Proofs.Store.Keeping
import Offside.Proofs.Store.Mirrors
import Offside.Proofs.Scoping.WellScoped
import Offside.Proofs.Scoping.Agreement
import Offside.Proofs.Scoping.Names
import Offside.Proofs.Scoping.Definitions
import Offside.Proofs.Scoping.ExpressionSafety
import Offside.Proofs.Scoping.Soundness
import Offside.Proofs.Store.Edits
import Offside.Proofs.Store.Machines
import Offside.Proofs.Trace.Log
import Offside.Proofs.Trace.Naturality
import Offside.Proofs.Trace.Erasure
import Offside.Proofs.Logic.Rules
import Offside.Proofs.Logic.Soundness
import Offside.Proofs.Trace.Edits
import Offside.Proofs.Scoping.CurrentScope
import Offside.Proofs.Scoping.Containment
import Offside.Proofs.Jumps.Placement
import Offside.Proofs.Bindings.Stability
import Offside.Proofs.Bindings.Void
import Offside.Proofs.Bindings.Arguments
import Offside.Proofs.Output.Printing
import Offside.Proofs.Output.FullSink
import Offside.Proofs.Closures.Definitions
import Offside.Proofs.Closures.Isolation
import Offside.Proofs.Closures.Snapshots
import Offside.Proofs.Bindings.Refusals
import Offside.Proofs.Grammar.Uniformity
import Offside.Proofs.Layout.Columns
import Offside.Proofs.Value.Text
import Offside.Proofs.Layout.LineEnds
import Offside.Proofs.Value.Dictionary
import Offside.Proofs.Value.Number
import Offside.Proofs.Value.Indexing
import Offside.Proofs.Value.Iteration
import Offside.Proofs.Value.Sequences
import Offside.Proofs.Value.Data
import Offside.Proofs.Value.Rebuilding
import Offside.Proofs.Value.Rereading
import Offside.Proofs.Evaluation.Arithmetic
import Offside.Proofs.Evaluation.Comparisons
import Offside.Proofs.Bindings.Arity
import Offside.Proofs.Store.Finite
import Offside.Proofs.Syntax.Parts
import Offside.Proofs.Loops.Halting
import Offside.Proofs.Loops.Rounds
import Offside.Proofs.Grammar.Beginnings
import Offside.Proofs.Token.Progress
import Offside.Proofs.Grammar.Progress
import Offside.Proofs.Bindings.Cells
import Offside.Proofs.Value.Histories

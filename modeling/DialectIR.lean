import DialectIR.Arith
import DialectIR.Attribute
import DialectIR.Binary64
import DialectIR.Binary64.Shortest
import DialectIR.CommandLine
import DialectIR.Context
import DialectIR.DeadOps
import DialectIR.Dialect
import DialectIR.Dict
import DialectIR.Error
import DialectIR.Event
import DialectIR.ExpectedLines
import DialectIR.FileTree
import DialectIR.Greedy
import DialectIR.Greedy.Replacement
import DialectIR.Location
import DialectIR.Lowering
import DialectIR.Main
import DialectIR.NameSupply
import DialectIR.Operation
import DialectIR.Operation.Path
import DialectIR.Operation.Print
import DialectIR.Operation.Scoping
import DialectIR.Parse
import DialectIR.Pass
import DialectIR.Pass.Manager
import DialectIR.Pass.Pipeline
import DialectIR.Pattern
import DialectIR.Proofs.Accepted
import DialectIR.Proofs.Arithmetic
import DialectIR.Proofs.Arity
import DialectIR.Proofs.Attempts
import DialectIR.Proofs.Blind
import DialectIR.Proofs.Canonicalization
import DialectIR.Proofs.Changes
import DialectIR.Proofs.Commit
import DialectIR.Proofs.Composition
import DialectIR.Proofs.ContainedLines
import DialectIR.Proofs.ContextUse
import DialectIR.Proofs.Convergence
import DialectIR.Proofs.DeadCode
import DialectIR.Proofs.DefiningOps
import DialectIR.Proofs.Deletion
import DialectIR.Proofs.Dominance
import DialectIR.Proofs.DrawnNames
import DialectIR.Proofs.Effects
import DialectIR.Proofs.Encounters
import DialectIR.Proofs.Excerpts
import DialectIR.Proofs.FailedMatches
import DialectIR.Proofs.Faithful
import DialectIR.Proofs.Findings
import DialectIR.Proofs.Fixpoint
import DialectIR.Proofs.FloatLiterals
import DialectIR.Proofs.Folding
import DialectIR.Proofs.Foresight
import DialectIR.Proofs.FreshNames
import DialectIR.Proofs.Freshness
import DialectIR.Proofs.Growth
import DialectIR.Proofs.Idempotence
import DialectIR.Proofs.IndexedReader
import DialectIR.Proofs.IntegerLiterals
import DialectIR.Proofs.Interleaving
import DialectIR.Proofs.Irreducible
import DialectIR.Proofs.Keywords
import DialectIR.Proofs.Layout
import DialectIR.Proofs.Legible
import DialectIR.Proofs.Literals
import DialectIR.Proofs.LoadedByReading
import DialectIR.Proofs.Loading
import DialectIR.Proofs.Lockstep
import DialectIR.Proofs.LoweredTree
import DialectIR.Proofs.Matching
import DialectIR.Proofs.NormalForm
import DialectIR.Proofs.Numeral
import DialectIR.Proofs.Orderly
import DialectIR.Proofs.Outcome
import DialectIR.Proofs.OwnOutput
import DialectIR.Proofs.ParserProgress
import DialectIR.Proofs.PassCalls
import DialectIR.Proofs.PassFlags
import DialectIR.Proofs.Passes
import DialectIR.Proofs.Persistence
import DialectIR.Proofs.PostOrder
import DialectIR.Proofs.Precedence
import DialectIR.Proofs.Presentable
import DialectIR.Proofs.Preservation
import DialectIR.Proofs.Printed
import DialectIR.Proofs.Pruning
import DialectIR.Proofs.ReadBack
import DialectIR.Proofs.Reader
import DialectIR.Proofs.ReaderContext
import DialectIR.Proofs.Redirected
import DialectIR.Proofs.Redirection
import DialectIR.Proofs.Reducts
import DialectIR.Proofs.Registration
import DialectIR.Proofs.Returns
import DialectIR.Proofs.RewriteLimit
import DialectIR.Proofs.Rewriting
import DialectIR.Proofs.RoundTrip
import DialectIR.Proofs.Rounding
import DialectIR.Proofs.ScopeDepth
import DialectIR.Proofs.Scoping
import DialectIR.Proofs.ShortestDecimal
import DialectIR.Proofs.SideBySide
import DialectIR.Proofs.SideEffects
import DialectIR.Proofs.Simplification
import DialectIR.Proofs.Spelling
import DialectIR.Proofs.Steps
import DialectIR.Proofs.Stillness
import DialectIR.Proofs.Stops
import DialectIR.Proofs.Substitution
import DialectIR.Proofs.SupplyHistory
import DialectIR.Proofs.Sweep
import DialectIR.Proofs.TokenCount
import DialectIR.Proofs.TokenPlaces
import DialectIR.Proofs.Traces
import DialectIR.Proofs.TraversalOrder
import DialectIR.Proofs.Truncation
import DialectIR.Proofs.UnescapedStrings
import DialectIR.Proofs.UnitProducts
import DialectIR.Proofs.Upkeep
import DialectIR.Proofs.ValueTokens
import DialectIR.Proofs.Visit
import DialectIR.Proofs.Walk
import DialectIR.Proofs.WellFormed
import DialectIR.Registry
import DialectIR.Rewrite
import DialectIR.Rewrite.Run
import DialectIR.Script
import DialectIR.Script.Pass
import DialectIR.SyntaxError
import DialectIR.Text.Join
import DialectIR.Text.Letter
import DialectIR.Text.Lines
import DialectIR.Text.Numeral
import DialectIR.Text.Printable
import DialectIR.Text.Quoted
import DialectIR.Text.Ranges
import DialectIR.Token
import DialectIR.Token.Scan
import DialectIR.Trial
import DialectIR.Ty
import DialectIR.Value

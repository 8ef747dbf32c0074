import DemandLex.CharSet
import DemandLex.CommandLine.Files
import DemandLex.CommandLine.Log
import DemandLex.CommandLine.Options
import DemandLex.CommandLine.Session
import DemandLex.Decimal.Binary64
import DemandLex.Decimal.Digits
import DemandLex.Decimal.Layout
import DemandLex.Decimal.Read
import DemandLex.Decimal.Shortest
import DemandLex.Diagnostic
import DemandLex.Json
import DemandLex.Lexer.Describe
import DemandLex.Lexer.State
import DemandLex.Lexer.Stream
import DemandLex.Lexer.Tokens
import DemandLex.Main
import DemandLex.Noted
import DemandLex.Numeral
import DemandLex.Position
import DemandLex.Program.Basic
import DemandLex.Program.Sequences
import DemandLex.Program.StepFunctions
import DemandLex.Proofs.CharSet
import DemandLex.Proofs.CommandLine.Repl
import DemandLex.Proofs.Decimal.Accumulation
import DemandLex.Proofs.Decimal.Digits
import DemandLex.Proofs.Decimal.Literal
import DemandLex.Proofs.Decimal.Nearest
import DemandLex.Proofs.Decimal.Operations
import DemandLex.Proofs.Decimal.Spacing
import DemandLex.Proofs.Json.Grammar
import DemandLex.Proofs.Json.Lexing
import DemandLex.Proofs.Lexer.Classes
import DemandLex.Proofs.Lexer.Grammar
import DemandLex.Proofs.Lexer.Kinds
import DemandLex.Proofs.Lexer.Lines
import DemandLex.Proofs.Lexer.LiteralValue
import DemandLex.Proofs.Lexer.MaximalMunch
import DemandLex.Proofs.Lexer.NumeralLexeme
import DemandLex.Proofs.Lexer.Origin
import DemandLex.Proofs.Lexer.Pending
import DemandLex.Proofs.Lexer.Reading
import DemandLex.Proofs.Lexer.Relocate
import DemandLex.Proofs.Lexer.Shape
import DemandLex.Proofs.Lexer.StringLexeme
import DemandLex.Proofs.Sequence.Consumer
import DemandLex.Proofs.Sequence.Extension
import DemandLex.Proofs.Sequence.Forcing
import DemandLex.Proofs.Sequence.Meaning
import DemandLex.Proofs.Sequence.Producer
import DemandLex.Proofs.Sequence.Share
import DemandLex.Proofs.Sequence.Spine
import DemandLex.Proofs.Sequence.Steady
import DemandLex.Proofs.Sequence.Store
import DemandLex.Proofs.StepFunction.History
import DemandLex.Proofs.StepFunction.Increasing
import DemandLex.Proofs.StepFunction.Lookup
import DemandLex.Proofs.StepFunction.Merge
import DemandLex.Proofs.StepFunction.Pointwise
import DemandLex.Proofs.StepFunction.Side
import DemandLex.Proofs.StepFunction.Stream
import DemandLex.Proofs.StepFunction.Tree
import DemandLex.Proofs.StepFunction.Walk
import DemandLex.Proofs.StepFunction.WellFormed
import DemandLex.Proofs.Text.Utf16
import DemandLex.Report
import DemandLex.Script.Function
import DemandLex.Script.Sequences
import DemandLex.Script.StepFunctions
import DemandLex.Script.Value
import DemandLex.Sequence.Basic
import DemandLex.Sequence.Lazy
import DemandLex.Sequence.Machine
import DemandLex.Sequence.Producer
import DemandLex.Sequence.Store
import DemandLex.StepFunction.Basic
import DemandLex.StepFunction.Pairs
import DemandLex.StepFunction.Stream
import DemandLex.StepFunction.Tree
import DemandLex.Strategy
import DemandLex.Text.Blank
import DemandLex.Text.Lines
import DemandLex.Text.Literal
import DemandLex.Text.Printable
import DemandLex.Text.Quoted
import DemandLex.Text.Record
import DemandLex.Token
import DemandLex.Workload
import DemandLex.Proofs.Lexer.Recovery
import DemandLex.Proofs.Sequence.Listing
import DemandLex.Proofs.Sequence.Approximation
import DemandLex.Proofs.Sequence.Operators
import DemandLex.Proofs.Sequence.Grounding
import DemandLex.Proofs.Sequence.Making
import DemandLex.Proofs.Sequence.Answering
import DemandLex.Proofs.Program.Lists
import DemandLex.Proofs.Program.Operators
import DemandLex.Proofs.Program.Refinement
import DemandLex.Proofs.Program.Finite
import DemandLex.Proofs.Sequence.Once
import DemandLex.Proofs.Sequence.Silence
import DemandLex.Proofs.Sequence.Calls
import DemandLex.Proofs.Sequence.Following
import DemandLex.Proofs.Sequence.Development
import DemandLex.Proofs.Program.Calls
import DemandLex.Proofs.Program.Works
import DemandLex.Proofs.Program.CallByNeed
import DemandLex.Proofs.Sequence.Demand
import DemandLex.Proofs.CharSet.Expression
import DemandLex.Proofs.CommandLine.Output
import DemandLex.Proofs.Text.OneLine
import DemandLex.Proofs.StepFunction.Canonical
import DemandLex.Proofs.StepFunction.Listing
import DemandLex.Proofs.StepFunction.Endless
import DemandLex.Proofs.StepFunction.Algebra
import DemandLex.Proofs.StepFunction.Overwriting
import DemandLex.Proofs.Sequence.Drawing
import DemandLex.Proofs.Lexer.Demand
import DemandLex.Proofs.Lexer.Passing
import DemandLex.Proofs.Lexer.ExactNumeral
import DemandLex.Proofs.Lexer.Invariant
import DemandLex.Proofs.Lexer.Checked
import DemandLex.Proofs.Decimal.NumeralText
import DemandLex.Proofs.Decimal.Conversion
import DemandLex.Proofs.Decimal.Shortest
import DemandLex.Proofs.Json.Numbers
import DemandLex.Proofs.Json.Compact
import DemandLex.Proofs.Json.Fields
import DemandLex.Proofs.Json.ReadBack
import DemandLex.Proofs.Lexer.Saturation
import DemandLex.Proofs.CharSet.Ranges
import DemandLex.Proofs.StepFunction.Pairs
import DemandLex.Proofs.StepFunction.Mapping
import DemandLex.Proofs.Sequence.Effects
import DemandLex.Proofs.Sequence.Exposure
import DemandLex.Proofs.Sequence.Concatenation
import DemandLex.Proofs.Sequence.Observation
import DemandLex.Proofs.Sequence.Feeding
import DemandLex.Proofs.Program.Fusion
import DemandLex.Proofs.Program.FirstElements
import DemandLex.Proofs.StepFunction.Demand
import DemandLex.Proofs.Sequence.Pulling
import DemandLex.Proofs.Sequence.Thinning
import DemandLex.Proofs.Sequence.Rooted
import DemandLex.Proofs.Sequence.Comparing
import DemandLex.Proofs.Program.Stopping
import DemandLex.Proofs.Program.Comparing
import DemandLex.Proofs.Program.Machines
import DemandLex.Proofs.StepFunction.Comparisons
import DemandLex.Proofs.StepFunction.Growth
import DemandLex.Proofs.Text.Lines
import DemandLex.Proofs.Diagnostic.Excerpt
import DemandLex.Proofs.Diagnostic.Pointing
import DemandLex.Proofs.CommandLine.Verbosity
import DemandLex.Proofs.Diagnostic.Styling
import DemandLex.Proofs.Lexer.Positions
import DemandLex.Proofs.Workload.Document
import DemandLex.Proofs.StepFunction.Capacity

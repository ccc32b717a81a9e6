import PredictiveParser.Analysis.Follow
import PredictiveParser.Analysis.Iterate
import PredictiveParser.Analysis.Lookahead
import PredictiveParser.Analysis.Prematch
import PredictiveParser.Analysis.Rule
import PredictiveParser.Analysis.Tree
import PredictiveParser.CharSet.Basic
import PredictiveParser.CharSet.Display
import PredictiveParser.Code.Lexer
import PredictiveParser.Code.Literal
import PredictiveParser.Code.Reference
import PredictiveParser.Code.Template
import PredictiveParser.Code.Token
import PredictiveParser.Diagnostics
import PredictiveParser.Error
import PredictiveParser.Generation
import PredictiveParser.Grammar.Basic
import PredictiveParser.Grammar.Builder
import PredictiveParser.Grammar.Display
import PredictiveParser.Grammar.Node
import PredictiveParser.Grammar.Prediction
import PredictiveParser.Grammar.Recognizers
import PredictiveParser.Grammar.Validate
import PredictiveParser.Input.Cursor
import PredictiveParser.Input.Error
import PredictiveParser.Input.Expected
import PredictiveParser.Input.Position
import PredictiveParser.Input.Source
import PredictiveParser.Input.Span
import PredictiveParser.Method.Alternatives
import PredictiveParser.Method.Basic
import PredictiveParser.Method.Helper
import PredictiveParser.Method.Level
import PredictiveParser.Method.Lower
import PredictiveParser.Method.SetCode
import PredictiveParser.Method.Signature
import PredictiveParser.Method.Stmt
import PredictiveParser.Method.Tables
import PredictiveParser.Options
import PredictiveParser.Proofs.Analysis.AtOnce
import PredictiveParser.Proofs.Analysis.Atomic
import PredictiveParser.Proofs.Analysis.Attach
import PredictiveParser.Proofs.Analysis.Completeness
import PredictiveParser.Proofs.Analysis.Failing
import PredictiveParser.Proofs.Analysis.Follow
import PredictiveParser.Proofs.Analysis.Justified
import PredictiveParser.Proofs.Analysis.Leads
import PredictiveParser.Proofs.Analysis.LeastFollow
import PredictiveParser.Proofs.Analysis.Limit
import PredictiveParser.Proofs.Analysis.Longest
import PredictiveParser.Proofs.Analysis.OnlyLimit
import PredictiveParser.Proofs.Analysis.OrderedChoice
import PredictiveParser.Proofs.Analysis.Paired
import PredictiveParser.Proofs.Analysis.Plain
import PredictiveParser.Proofs.Analysis.Prematch
import PredictiveParser.Proofs.Analysis.Prepared
import PredictiveParser.Proofs.Analysis.Reachable
import PredictiveParser.Proofs.Analysis.Repeated
import PredictiveParser.Proofs.Analysis.Rule
import PredictiveParser.Proofs.Analysis.Total
import PredictiveParser.Proofs.Analysis.TreeShape
import PredictiveParser.Proofs.CharSet.Algebra
import PredictiveParser.Proofs.CharSet.Membership
import PredictiveParser.Proofs.Code.Apart
import PredictiveParser.Proofs.Code.Evaluation
import PredictiveParser.Proofs.Code.Idents
import PredictiveParser.Proofs.Code.Lexer
import PredictiveParser.Proofs.Code.Literal
import PredictiveParser.Proofs.Code.Lockstep
import PredictiveParser.Proofs.Code.Only
import PredictiveParser.Proofs.Code.Variables
import PredictiveParser.Proofs.Failure
import PredictiveParser.Proofs.Generation.Commute
import PredictiveParser.Proofs.Generation.Declared
import PredictiveParser.Proofs.Generation.Escapes
import PredictiveParser.Proofs.Generation.Forms
import PredictiveParser.Proofs.Generation.Frame
import PredictiveParser.Proofs.Generation.Names
import PredictiveParser.Proofs.Generation.Returns
import PredictiveParser.Proofs.Generation.Rule
import PredictiveParser.Proofs.Generation.Run
import PredictiveParser.Proofs.Generation.Soundness
import PredictiveParser.Proofs.Generation.Total
import PredictiveParser.Proofs.Generation.Unreachable
import PredictiveParser.Proofs.Grammar.Acceptance
import PredictiveParser.Proofs.Grammar.Blank
import PredictiveParser.Proofs.Grammar.Built
import PredictiveParser.Proofs.Grammar.Closure
import PredictiveParser.Proofs.Grammar.Copies
import PredictiveParser.Proofs.Grammar.Duplicates
import PredictiveParser.Proofs.Grammar.Forest
import PredictiveParser.Proofs.Grammar.Growth
import PredictiveParser.Proofs.Grammar.Height
import PredictiveParser.Proofs.Grammar.Kinds
import PredictiveParser.Proofs.Grammar.Matching
import PredictiveParser.Proofs.Grammar.Naming
import PredictiveParser.Proofs.Grammar.Ordered
import PredictiveParser.Proofs.Grammar.Paired
import PredictiveParser.Proofs.Grammar.Parents
import PredictiveParser.Proofs.Grammar.Paths
import PredictiveParser.Proofs.Grammar.Recognizers
import PredictiveParser.Proofs.Grammar.Shape
import PredictiveParser.Proofs.Grammar.Synthesis
import PredictiveParser.Proofs.Grammar.Trees
import PredictiveParser.Proofs.Grammar.Validity
import PredictiveParser.Proofs.Grammar.Widening
import PredictiveParser.Proofs.Input.Bytes
import PredictiveParser.Proofs.Input.Coordinates
import PredictiveParser.Proofs.Input.Cursor
import PredictiveParser.Proofs.Input.Lawful
import PredictiveParser.Proofs.Input.Position
import PredictiveParser.Proofs.Lookahead.Annotations
import PredictiveParser.Proofs.Lookahead.Bound
import PredictiveParser.Proofs.Lookahead.Ending
import PredictiveParser.Proofs.Lookahead.Exact
import PredictiveParser.Proofs.Lookahead.First
import PredictiveParser.Proofs.Lookahead.Levels
import PredictiveParser.Proofs.Lookahead.Nesting
import PredictiveParser.Proofs.Lookahead.Reading
import PredictiveParser.Proofs.Lookahead.Regions
import PredictiveParser.Proofs.Lookahead.Search
import PredictiveParser.Proofs.Lookahead.Stacks
import PredictiveParser.Proofs.Lookahead.Unfolding
import PredictiveParser.Proofs.Lookahead.Viable
import PredictiveParser.Proofs.Lookahead.Within
import PredictiveParser.Proofs.Method.Alternatives
import PredictiveParser.Proofs.Method.Arms
import PredictiveParser.Proofs.Method.Authored
import PredictiveParser.Proofs.Method.Bindings
import PredictiveParser.Proofs.Method.Calls
import PredictiveParser.Proofs.Method.Checks
import PredictiveParser.Proofs.Method.Decision
import PredictiveParser.Proofs.Method.Dispatch
import PredictiveParser.Proofs.Method.Helper
import PredictiveParser.Proofs.Method.Jumps
import PredictiveParser.Proofs.Method.Labels
import PredictiveParser.Proofs.Method.Level
import PredictiveParser.Proofs.Method.Lowering
import PredictiveParser.Proofs.Method.Matching
import PredictiveParser.Proofs.Method.Outline
import PredictiveParser.Proofs.Method.Paths
import PredictiveParser.Proofs.Method.Reads
import PredictiveParser.Proofs.Method.Rendering
import PredictiveParser.Proofs.Method.Running
import PredictiveParser.Proofs.Method.Scoped
import PredictiveParser.Proofs.Method.SetCode
import PredictiveParser.Proofs.Method.Shared
import PredictiveParser.Proofs.Method.Total
import PredictiveParser.Proofs.Method.Unreachable
import PredictiveParser.Proofs.Prediction.Select
import PredictiveParser.Proofs.Success
import PredictiveParser.Proofs.Surface.Attribute
import PredictiveParser.Proofs.Surface.Reader
import PredictiveParser.Proofs.Surface.Settings
import PredictiveParser.Proofs.Text.Names
import PredictiveParser.Proofs.Values.Again
import PredictiveParser.Proofs.Values.Declarations
import PredictiveParser.Proofs.Values.Declared
import PredictiveParser.Proofs.Values.Distinct
import PredictiveParser.Proofs.Values.Exact
import PredictiveParser.Proofs.Values.Frame
import PredictiveParser.Proofs.Values.Labels
import PredictiveParser.Proofs.Values.Left
import PredictiveParser.Proofs.Values.Messages
import PredictiveParser.Proofs.Values.Names
import PredictiveParser.Proofs.Values.Paired
import PredictiveParser.Proofs.Values.Rewritten
import PredictiveParser.Proofs.Values.Saved
import PredictiveParser.Proofs.Values.Saving
import PredictiveParser.Proofs.Values.Scope
import PredictiveParser.Proofs.Values.Settling
import PredictiveParser.Proofs.Values.Stored
import PredictiveParser.Proofs.Values.Total
import PredictiveParser.Proofs.Yields
import PredictiveParser.Surface.Attribute
import PredictiveParser.Surface.Bound
import PredictiveParser.Surface.Code
import PredictiveParser.Surface.Declaration
import PredictiveParser.Surface.Expression
import PredictiveParser.Surface.Function
import PredictiveParser.Surface.Generics
import PredictiveParser.Surface.Item
import PredictiveParser.Surface.Member
import PredictiveParser.Surface.Nested
import PredictiveParser.Surface.Path
import PredictiveParser.Surface.Pattern
import PredictiveParser.Surface.Reader
import PredictiveParser.Surface.Settings
import PredictiveParser.Surface.Statement
import PredictiveParser.Surface.Type
import PredictiveParser.Text.Identifier
import PredictiveParser.Text.Printable
import PredictiveParser.Text.Quoted
import PredictiveParser.Text.Ranges
import PredictiveParser.Text.WhiteSpace
import PredictiveParser.Values.References
import PredictiveParser.Values.Save

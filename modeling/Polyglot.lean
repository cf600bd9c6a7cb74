import Polyglot.Config
import Polyglot.Config.Reader
import Polyglot.Diagnostic
import Polyglot.Dictionary
import Polyglot.Eval.Action
import Polyglot.Eval.Basic
import Polyglot.Eval.Execute
import Polyglot.Eval.Loop
import Polyglot.Failure
import Polyglot.Fault
import Polyglot.Json.Basic
import Polyglot.Json.Printer
import Polyglot.Json.Reader
import Polyglot.Keyword
import Polyglot.Number.Binary64
import Polyglot.Number.Decimal
import Polyglot.Number.Width
import Polyglot.OrderedMap
import Polyglot.Program.Codec
import Polyglot.Program.Grammar
import Polyglot.Program.Node
import Polyglot.Program.Outline
import Polyglot.Program.Tape
import Polyglot.Proofs.Eval.Congruence
import Polyglot.Proofs.Eval.Faults
import Polyglot.Proofs.Eval.Outcome
import Polyglot.Proofs.Eval.Preservation
import Polyglot.Proofs.Eval.Reporting
import Polyglot.Proofs.Program.Parts
import Polyglot.Proofs.Program.Relocation
import Polyglot.Proofs.Program.Sound
import Polyglot.Proofs.ScopeStack
import Polyglot.Scope
import Polyglot.Session
import Polyglot.Similar
import Polyglot.Source
import Polyglot.Text.Classes
import Polyglot.Text.Quoted
import Polyglot.Token.Basic
import Polyglot.Token.Lexeme
import Polyglot.Token.Literal
import Polyglot.Token.Symbol
import Polyglot.Toml.Basic
import Polyglot.Toml.Date
import Polyglot.Toml.Number
import Polyglot.Toml.Reader
import Polyglot.Toml.Text
import Polyglot.Toolbox
import Polyglot.Value.Basic
import Polyglot.Value.Equality
import Polyglot.Value.Operators
import Polyglot.Value.Tree
import Polyglot.World.Basic
import Polyglot.World.Event
import Polyglot.World.Interpreter
import Polyglot.Proofs.Parsing.Agreement
import Polyglot.Proofs.Parsing.Following
import Polyglot.Proofs.Lexing.Joining
import Polyglot.Proofs.Parsing.PlacedRules
import Polyglot.Proofs.Parsing.Placement
import Polyglot.Proofs.Parsing.Rules
import Polyglot.Proofs.Exits
import Polyglot.Proofs.Cache
import Polyglot.Proofs.Localisation
import Polyglot.Proofs.OrderedMap
import Polyglot.Proofs.Settings
import Polyglot.Proofs.Forking
import Polyglot.Proofs.Program.WellFormed
import Polyglot.Proofs.Parsing.Shape
import Polyglot.Proofs.Parsing.Writing
import Polyglot.Proofs.Parsing.Completeness
import Polyglot.Proofs.Trees
import Polyglot.Proofs.Eval.Budget
import Polyglot.Proofs.Eval.Limit
import Polyglot.Proofs.Termination
import Polyglot.Proofs.Lexing.Cutting
import Polyglot.Proofs.Lexing.Literals
import Polyglot.Proofs.Lexing.Places
import Polyglot.Proofs.Lexing.Tokens
import Polyglot.Proofs.Tiling
import Polyglot.Proofs.Locations
import Polyglot.Proofs.FailurePlaces
import Polyglot.Proofs.Composition
import Polyglot.Proofs.Value.Doubles
import Polyglot.Proofs.Value.Containers
import Polyglot.Proofs.Value.Comparing
import Polyglot.Proofs.Equality
import Polyglot.Proofs.Rendering
import Polyglot.Proofs.Names
import Polyglot.Proofs.Value.Growth
import Polyglot.Proofs.Eval.Trails
import Polyglot.Proofs.Lifetimes
import Polyglot.Proofs.Eval.Cancelled
import Polyglot.Proofs.Cancellation
import Polyglot.Proofs.Conversion
import Polyglot.Proofs.Isolation
import Polyglot.Proofs.Json.Scalars
import Polyglot.Proofs.Json.Layout
import Polyglot.Proofs.Program.Decoding
import Polyglot.Proofs.Eval.Rounds
import Polyglot.Proofs.Retention
import Polyglot.Proofs.Lexing.Quoting
import Polyglot.Proofs.Parsing.Operators
import Polyglot.Proofs.Value.Rounding
import Polyglot.Proofs.Counting
import Polyglot.Proofs.Lexing.Numerals
import Polyglot.LineIndex
import Polyglot.Proofs.EditDistance
import Polyglot.Proofs.LinePositions
import Polyglot.Proofs.Value.Truncation
import Polyglot.Proofs.IndexWrites
import Polyglot.Proofs.Value.Repetition
import Polyglot.Proofs.InsertionOrder
import Polyglot.Proofs.Assignment
import Polyglot.Proofs.Text.Quoted
import Polyglot.Proofs.Value.Shortest
import Polyglot.Proofs.Value.DecimalText
import Polyglot.Proofs.Outline.Layout
import Polyglot.Proofs.Outline.Labels
import Polyglot.Proofs.Outline.Recovery
import Polyglot.Proofs.Value.Arithmetic
import Polyglot.Program.Descent
import Polyglot.Proofs.Parsing.Climbing
import Polyglot.Proofs.Progress

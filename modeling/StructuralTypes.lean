import StructuralTypes.Check
import StructuralTypes.Check.Agreement
import StructuralTypes.CommandLine
import StructuralTypes.CommandLine.Arguments
import StructuralTypes.CommandLine.Promise
import StructuralTypes.CommandLine.Run
import StructuralTypes.Digest.Sha256
import StructuralTypes.Failure
import StructuralTypes.Failure.Messages
import StructuralTypes.Failure.Points
import StructuralTypes.Failure.Report
import StructuralTypes.Failure.Shown
import StructuralTypes.Fault
import StructuralTypes.Grammar
import StructuralTypes.Json
import StructuralTypes.Json.Parser
import StructuralTypes.Json.Printer
import StructuralTypes.Json.Value
import StructuralTypes.Level
import StructuralTypes.Level.Listener
import StructuralTypes.Logging
import StructuralTypes.Main
import StructuralTypes.Moment
import StructuralTypes.Node
import StructuralTypes.Node.Encoding
import StructuralTypes.Node.Expansion
import StructuralTypes.Node.Integrity
import StructuralTypes.Node.Legible
import StructuralTypes.Node.Meaning
import StructuralTypes.Node.Merge
import StructuralTypes.Node.Parser
import StructuralTypes.Node.Printable
import StructuralTypes.Node.Printer
import StructuralTypes.Node.Regular
import StructuralTypes.Numeric.Double
import StructuralTypes.Numeric.Overlong
import StructuralTypes.Numeric.Shortest
import StructuralTypes.Predicate
import StructuralTypes.Registry
import StructuralTypes.Registry.Build
import StructuralTypes.Registry.Course
import StructuralTypes.Registry.History
import StructuralTypes.Settings
import StructuralTypes.Settings.Assigned
import StructuralTypes.Settings.Checking
import StructuralTypes.Settings.Document
import StructuralTypes.Settings.Overrides
import StructuralTypes.Table
import StructuralTypes.Text.CharClass
import StructuralTypes.Text.CodePoints
import StructuralTypes.Text.Escapes
import StructuralTypes.Text.NumberText
import StructuralTypes.Text.Quoted
import StructuralTypes.Text.Radix
import StructuralTypes.Text.Split
import StructuralTypes.Token
import StructuralTypes.Token.Additions
import StructuralTypes.Token.Balance
import StructuralTypes.Token.Brackets
import StructuralTypes.Token.Cursor
import StructuralTypes.Token.Glyph
import StructuralTypes.Token.Lexer
import StructuralTypes.Token.MarkerForm
import StructuralTypes.Token.Tree
import StructuralTypes.Validator
import StructuralTypes.Validator.Answers
import StructuralTypes.Validator.Compile
import StructuralTypes.Validator.Evaluate
import StructuralTypes.Validator.Guarded
import StructuralTypes.Value
import StructuralTypes.Value.Describe
import StructuralTypes.Value.Display
import StructuralTypes.Yaml
import StructuralTypes.Yaml.BlockText
import StructuralTypes.Yaml.Cursor
import StructuralTypes.Yaml.Lexeme
import StructuralTypes.Yaml.Reader
import StructuralTypes.Yaml.Scalar
import StructuralTypes.Yaml.Tag
import StructuralTypes.Yaml.Token
import StructuralTypes.Yaml.Tokens
import StructuralTypes.Yaml.Value
import StructuralTypes.Proofs.Tables
import StructuralTypes.Proofs.Passes
import StructuralTypes.Proofs.Walk
import StructuralTypes.Proofs.Precedence
import StructuralTypes.Proofs.Membership
import StructuralTypes.Proofs.Canonical
import StructuralTypes.Proofs.Compilable
import StructuralTypes.Proofs.JsonText
import StructuralTypes.Proofs.Expansion
import StructuralTypes.Proofs.Aliases
import StructuralTypes.Proofs.Glyphs
import StructuralTypes.Proofs.Marking
import StructuralTypes.Proofs.RoundTrip
import StructuralTypes.Proofs.Histories
import StructuralTypes.Proofs.Encoding
import StructuralTypes.Node.Blame
import StructuralTypes.Proofs.Blame
import StructuralTypes.Proofs.Tampering
import StructuralTypes.Proofs.Conservation
import StructuralTypes.Proofs.Answering
import StructuralTypes.Proofs.Acceptance
import StructuralTypes.Proofs.EntryPoints
import StructuralTypes.Proofs.Courses
import StructuralTypes.Proofs.NameKeeping
import StructuralTypes.Proofs.Settling
import StructuralTypes.Proofs.Recompiling
import StructuralTypes.Proofs.Caution
import StructuralTypes.Proofs.TextAliases
import StructuralTypes.Proofs.ExitStatus
import StructuralTypes.Proofs.Grouping
import StructuralTypes.Proofs.Gaps
import StructuralTypes.Proofs.Relabelling
import StructuralTypes.Proofs.Exchange
import StructuralTypes.Proofs.TokenStream
import StructuralTypes.Failure.Written
import StructuralTypes.Failure.Located
import StructuralTypes.Proofs.Flattening
import StructuralTypes.Proofs.Locations
import StructuralTypes.Proofs.Reprinting
import StructuralTypes.Token.Standing
import StructuralTypes.Proofs.Tracking
import StructuralTypes.Proofs.Colons
import StructuralTypes.Proofs.Keys
import StructuralTypes.Proofs.Piecewise
import StructuralTypes.Proofs.Standing
import StructuralTypes.Proofs.Quoting
import StructuralTypes.Proofs.Calls
import StructuralTypes.Proofs.Regrouping
import StructuralTypes.Proofs.Marks
import StructuralTypes.Proofs.Balancing
import StructuralTypes.Proofs.Closers
import StructuralTypes.Proofs.Merging
import StructuralTypes.Proofs.Warnings
import StructuralTypes.Proofs.Overrides
import StructuralTypes.Proofs.Merges
import StructuralTypes.Proofs.Composition
import StructuralTypes.Proofs.Reports

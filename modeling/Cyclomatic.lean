import Cyclomatic.Analysis
import Cyclomatic.Command.Arguments
import Cyclomatic.Command.Basic
import Cyclomatic.Command.Help
import Cyclomatic.Command.Run
import Cyclomatic.Config.Basic
import Cyclomatic.Config.Load
import Cyclomatic.Diagram.Basic
import Cyclomatic.Diagram.Dot
import Cyclomatic.Diagram.Listing
import Cyclomatic.Event
import Cyclomatic.Failure
import Cyclomatic.Files.Basic
import Cyclomatic.Files.Error
import Cyclomatic.Flow.Build
import Cyclomatic.Flow.Graph
import Cyclomatic.Flow.Outline
import Cyclomatic.Format
import Cyclomatic.Glob
import Cyclomatic.Language
import Cyclomatic.Main
import Cyclomatic.Metrics.Export
import Cyclomatic.Metrics.Record
import Cyclomatic.Number.Basic
import Cyclomatic.Number.Binary64
import Cyclomatic.Number.Decimal
import Cyclomatic.ParseTree.Basic
import Cyclomatic.ParseTree.Normalize
import Cyclomatic.ParseTree.Table
import Cyclomatic.Parsed
import Cyclomatic.Path
import Cyclomatic.Report.Basic
import Cyclomatic.Report.Risk
import Cyclomatic.Report.Text
import Cyclomatic.Scan.Basic
import Cyclomatic.Scan.Discover
import Cyclomatic.Scan.Select
import Cyclomatic.Scan.Settings
import Cyclomatic.Text.Ascii
import Cyclomatic.Text.Lines
import Cyclomatic.Text.Numeral
import Cyclomatic.Text.Printable
import Cyclomatic.Text.Quoted
import Cyclomatic.Text.Styled
import Cyclomatic.Text.Utf8
import Cyclomatic.Tree.Basic
import Cyclomatic.Tree.Functions
import Cyclomatic.Tree.Walk
import Cyclomatic.Value.Basic
import Cyclomatic.Value.Json
import Cyclomatic.Value.Yaml.BlockText
import Cyclomatic.Value.Yaml.Cursor
import Cyclomatic.Value.Yaml.Document
import Cyclomatic.Value.Yaml.Lexer
import Cyclomatic.Value.Yaml.Mark
import Cyclomatic.Value.Yaml.Node
import Cyclomatic.Value.Yaml.PlainText
import Cyclomatic.Value.Yaml.Property
import Cyclomatic.Value.Yaml.QuotedText
import Cyclomatic.Value.Yaml.Scalar
import Cyclomatic.Value.Yaml.Token
import Cyclomatic.Walk
import Cyclomatic.Proofs.Flow.Emission
import Cyclomatic.Proofs.Flow.Placement
import Cyclomatic.Proofs.Flow.Shape
import Cyclomatic.Proofs.Flow.Reach
import Cyclomatic.Proofs.Flow.Closing
import Cyclomatic.Proofs.Flow.Connectivity
import Cyclomatic.Proofs.Flow.ExitEdges
import Cyclomatic.Proofs.Flow.Parallel
import Cyclomatic.Proofs.Flow.Nesting
import Cyclomatic.Proofs.Flow.Leaks
import Cyclomatic.Proofs.Flow.Inset
import Cyclomatic.Proofs.Flow.Finally
import Cyclomatic.Proofs.Flow.Course
import Cyclomatic.Proofs.Tree.Execution
import Cyclomatic.Proofs.Flow.Routes
import Cyclomatic.Proofs.Flow.Handlers
import Cyclomatic.Proofs.Flow.Loops
import Cyclomatic.Proofs.Flow.Marks
import Cyclomatic.Proofs.Tree.Trails
import Cyclomatic.Proofs.Tree.Decisions
import Cyclomatic.Proofs.ParseTree.Exposure
import Cyclomatic.Proofs.ParseTree.Decisions
import Cyclomatic.Proofs.ParseTree.Origins
import Cyclomatic.Proofs.ParseTree.Counting
import Cyclomatic.Proofs.ParseTree.Order
import Cyclomatic.Proofs.ParseTree.Slots
import Cyclomatic.Proofs.Tree.Reached
import Cyclomatic.Proofs.Tree.Seats
import Cyclomatic.Proofs.Flow.Faults
import Cyclomatic.Proofs.Tree.Stretches
import Cyclomatic.Proofs.Flow.Blocks
import Cyclomatic.Proofs.Flow.SourceOrder
import Cyclomatic.Proofs.Scan.Collection
import Cyclomatic.Proofs.Scan.Discovery
import Cyclomatic.Proofs.Scan.Schedules
import Cyclomatic.Proofs.Scan.Accounting
import Cyclomatic.Proofs.Flow.Ledger
import Cyclomatic.Proofs.Tree.Completion
import Cyclomatic.Proofs.Lookup
import Cyclomatic.Proofs.Files.Changes
import Cyclomatic.Proofs.Text.Reading
import Cyclomatic.Proofs.Metrics.Export
import Cyclomatic.Proofs.Tree.NestedFunctions
import Cyclomatic.Proofs.Flow.Skeleton
import Cyclomatic.Proofs.Value.Entries
import Cyclomatic.Proofs.Config
import Cyclomatic.Proofs.Path.Relative
import Cyclomatic.Proofs.Scan.Selection
import Cyclomatic.Proofs.Language
import Cyclomatic.Proofs.Preorder
import Cyclomatic.Proofs.Number.Text
import Cyclomatic.Proofs.Text.Styled
import Cyclomatic.Proofs.Format
import Cyclomatic.Proofs.Diagram.Dot

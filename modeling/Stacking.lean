import Stacking.Analysis
import Stacking.Bus
import Stacking.Command.Arguments
import Stacking.Command.Check
import Stacking.Command.File
import Stacking.Command.Fix
import Stacking.Command.JsonValue
import Stacking.Command.Number
import Stacking.Command.Outcome
import Stacking.Command.Output
import Stacking.Command.Run
import Stacking.Command.Watch
import Stacking.Diagnostic
import Stacking.Fix
import Stacking.Hover
import Stacking.Main
import Stacking.Proofs.Analysis
import Stacking.Proofs.Bus.Kept
import Stacking.Proofs.Bus.Proceeding
import Stacking.Proofs.Chronicle
import Stacking.Proofs.Command.Address
import Stacking.Proofs.Command.Agreement
import Stacking.Proofs.Command.Writing
import Stacking.Proofs.Concatenation
import Stacking.Proofs.Delivery
import Stacking.Proofs.Fix.Deletion
import Stacking.Proofs.Fix.Insertion
import Stacking.Proofs.Fix.Insertions
import Stacking.Proofs.Fix.Offered
import Stacking.Proofs.Fix.Removal
import Stacking.Proofs.Hover
import Stacking.Proofs.Listing
import Stacking.Proofs.Ranges
import Stacking.Proofs.Repair.Apart
import Stacking.Proofs.Repair.Isolated
import Stacking.Proofs.Repair.Isolation
import Stacking.Proofs.Repair.Removals
import Stacking.Proofs.Session.Apart
import Stacking.Proofs.Session.Course
import Stacking.Proofs.Session.Deadlines
import Stacking.Proofs.Session.Flush
import Stacking.Proofs.Session.Freshness
import Stacking.Proofs.Session.Intake
import Stacking.Proofs.Session.Invariant
import Stacking.Proofs.Session.Mirror
import Stacking.Proofs.Session.Onward
import Stacking.Proofs.Session.Opening
import Stacking.Proofs.Session.Outcome
import Stacking.Proofs.Session.Passive
import Stacking.Proofs.Session.Progress
import Stacking.Proofs.Session.Promptness
import Stacking.Proofs.Session.Receptions
import Stacking.Proofs.Session.Record
import Stacking.Proofs.Session.Timers
import Stacking.Proofs.Session.Waiting
import Stacking.Proofs.Style.Concatenation
import Stacking.Proofs.Style.Derivation
import Stacking.Proofs.Style.Derived
import Stacking.Proofs.Style.Excerpt
import Stacking.Proofs.Style.Extent
import Stacking.Proofs.Style.Faults
import Stacking.Proofs.Style.Grammar
import Stacking.Proofs.Style.Ink
import Stacking.Proofs.Style.Layout
import Stacking.Proofs.Style.Nesting
import Stacking.Proofs.Style.Owners
import Stacking.Proofs.Style.Parsing
import Stacking.Proofs.Style.Patterns
import Stacking.Proofs.Style.Reading
import Stacking.Proofs.Style.Respelling
import Stacking.Proofs.Style.Spans
import Stacking.Proofs.Style.Splice
import Stacking.Proofs.Style.Starts
import Stacking.Proofs.Style.Terminals
import Stacking.Proofs.Style.Tree
import Stacking.Proofs.Style.Viable
import Stacking.Proofs.Style.Walk
import Stacking.Proofs.Text.Clamping
import Stacking.Proofs.Text.Correspondence
import Stacking.Proofs.Text.Counting
import Stacking.Proofs.Text.Lines
import Stacking.Proofs.Text.Moved
import Stacking.Proofs.Text.Offsets
import Stacking.Proofs.Text.Regex
import Stacking.Proofs.Text.Simultaneous
import Stacking.Proofs.Text.Substitution
import Stacking.Proofs.Verdict
import Stacking.Repair
import Stacking.Rounding
import Stacking.Session.Query
import Stacking.Session.Schedule
import Stacking.Session.State
import Stacking.Session.Step
import Stacking.Session.Time
import Stacking.Settings
import Stacking.Style.Node
import Stacking.Style.Parse
import Stacking.Style.ParseError
import Stacking.Style.Statement
import Stacking.Style.Token
import Stacking.Table
import Stacking.Text.Basic
import Stacking.Text.Digit
import Stacking.Text.Document
import Stacking.Text.Edit
import Stacking.Text.Plain
import Stacking.Text.Position
import Stacking.Text.Printable
import Stacking.Text.Quoted
import Stacking.Text.Similar
import Stacking.Text.Word
import Stacking.Verdict

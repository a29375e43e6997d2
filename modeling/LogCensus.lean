import LogCensus.Analysis.Run
import LogCensus.Csv.Reader
import LogCensus.Main
import LogCensus.Pool.Gate
import LogCensus.Pool.History
import LogCensus.Proofs.Pool.Accounts
import LogCensus.Proofs.Pool.Losses
import LogCensus.Proofs.Counts
import LogCensus.Proofs.Pool.Conservation
import LogCensus.Proofs.Time.Order
import LogCensus.Proofs.Tally
import LogCensus.Proofs.Scan.Ledger
import LogCensus.Proofs.Scan.Groups
import LogCensus.Proofs.Scan.Reference
import LogCensus.Proofs.Report
import LogCensus.Proofs.Analysis.Following
import LogCensus.Proofs.Inspection
import LogCensus.Proofs.Analysis.Schedule
import LogCensus.Proofs.Analysis.Totals
import LogCensus.Proofs.Spread
import LogCensus.Proofs.Scan.Single
import LogCensus.Proofs.Scan.Cancelled
import LogCensus.Proofs.Failure
import LogCensus.Proofs.Text.Numeral
import LogCensus.Proofs.Time.Calendar
import LogCensus.Proofs.Time.Reading
import LogCensus.Proofs.Decimal.Rounding
import LogCensus.Proofs.Decimal.Shortest
import LogCensus.Proofs.Json.Numeral
import LogCensus.Proofs.Json.Number
import LogCensus.Proofs.Json.Text
import LogCensus.Proofs.Json.Tree
import LogCensus.Proofs.Json.Forms
import LogCensus.Proofs.Export
import LogCensus.Proofs.Pool.Acts
import LogCensus.Proofs.Pool.Line
import LogCensus.Proofs.Pool.WindingDown
import LogCensus.Proofs.Pool.Bounds
import LogCensus.Proofs.Analysis.Completion
import LogCensus.Proofs.Analysis.Coverage
import LogCensus.Proofs.Csv.Reading
import LogCensus.Proofs.Csv.Writing
import LogCensus.Proofs.Export.Run
import LogCensus.Proofs.Export.Tables
import LogCensus.Proofs.Export.Entries
import LogCensus.Proofs.Pool.Unattended
import LogCensus.Proofs.Scan.Joined
import LogCensus.Proofs.Failure.TextForm
import LogCensus.Proofs.Time.Clock
import LogCensus.Proofs.Time.Day
import LogCensus.Proofs.Expansion.Walk
import LogCensus.Proofs.Scan.Agreement
import LogCensus.Proofs.Format.Application
import LogCensus.Proofs.Inspection.Detected
import LogCensus.Proofs.Format.AccessLog
import LogCensus.Proofs.Decimal.ReadBack
import LogCensus.Proofs.Time.DateTime
import LogCensus.Proofs.Format.JsonLines
import LogCensus.Proofs.Format.TimeText
import LogCensus.Proofs.Format.Epoch
import LogCensus.Proofs.Format.Probes
import LogCensus.Proofs.Scan.Widened
import LogCensus.Proofs.Time.Skipped
import LogCensus.Proofs.Expansion.Union
import LogCensus.Proofs.Registry
import LogCensus.Proofs.Analysis.Updates
import LogCensus.Proofs.Export.Bounded
import LogCensus.Proofs.Expansion.Relative
import LogCensus.Proofs.Registry.Lookup
import LogCensus.Proofs.Failure.Marks
import LogCensus.Proofs.Digest
import LogCensus.Proofs.Format.Exported
import LogCensus.Proofs.Line
import LogCensus.Proofs.Settings

import RangeTransfer.Abort
import RangeTransfer.Attempt.Crew
import RangeTransfer.Attempt.Pool
import RangeTransfer.Attempt.Strategy
import RangeTransfer.Attempt.Tracker
import RangeTransfer.Attempt.Watermark
import RangeTransfer.Attempt.Worker
import RangeTransfer.Binary64
import RangeTransfer.CommandLine.Arguments
import RangeTransfer.CommandLine.Ending
import RangeTransfer.CommandLine.Get
import RangeTransfer.CommandLine.Grammar
import RangeTransfer.CommandLine.Parts
import RangeTransfer.CommandLine.Run
import RangeTransfer.Duration
import RangeTransfer.Error
import RangeTransfer.Fetch
import RangeTransfer.Http.Chunked
import RangeTransfer.Http.Message
import RangeTransfer.Http.Remote
import RangeTransfer.Http.Request
import RangeTransfer.Http.Url
import RangeTransfer.Layout.Name
import RangeTransfer.Layout.Parts
import RangeTransfer.Layout.Split
import RangeTransfer.LogFilter.Basic
import RangeTransfer.LogFilter.Directive
import RangeTransfer.LogFilter.Field
import RangeTransfer.LogFilter.Level
import RangeTransfer.Main
import RangeTransfer.Offset
import RangeTransfer.Path
import RangeTransfer.Pattern.Basic
import RangeTransfer.Pattern.Element
import RangeTransfer.Pattern.Set
import RangeTransfer.Progress
import RangeTransfer.Range.Basic
import RangeTransfer.Range.ContentRange
import RangeTransfer.Range.Plan
import RangeTransfer.Remote.Basic
import RangeTransfer.Remote.Scripted
import RangeTransfer.Retry
import RangeTransfer.Settings.File
import RangeTransfer.Settings.Ini
import RangeTransfer.Settings.Logging
import RangeTransfer.Settings.Transfer
import RangeTransfer.Settings.Transport
import RangeTransfer.Sink.Basic
import RangeTransfer.Sink.Direct
import RangeTransfer.Sink.Split
import RangeTransfer.Storage.Content
import RangeTransfer.Storage.Error
import RangeTransfer.Storage.Store
import RangeTransfer.Storage.Table
import RangeTransfer.Text.Base64
import RangeTransfer.Text.Blank
import RangeTransfer.Text.Decimal
import RangeTransfer.Text.Hexadecimal
import RangeTransfer.Text.Invisible
import RangeTransfer.Text.Letter
import RangeTransfer.Text.Quoted
import RangeTransfer.Text.Record
import RangeTransfer.Text.Runs
import RangeTransfer.Text.Slice
import RangeTransfer.Text.Utf8
import RangeTransfer.Transfer.Attempt
import RangeTransfer.Transfer.Download
import RangeTransfer.Transfer.Placement
import RangeTransfer.Transfer.Request
import RangeTransfer.Proofs.Attempt.Accounts
import RangeTransfer.Proofs.Attempt.Faithful
import RangeTransfer.Proofs.Attempt.Fates
import RangeTransfer.Proofs.Attempt.Stored
import RangeTransfer.Proofs.Remote.Archive
import RangeTransfer.Proofs.Remote.Serving
import RangeTransfer.Proofs.Sink.Open
import RangeTransfer.Proofs.Transfer.Checkpoint
import RangeTransfer.Proofs.Transfer.Exact
import RangeTransfer.Proofs.Transfer.KeptPrefix
import RangeTransfer.Proofs.Attempt.Calls
import RangeTransfer.Proofs.Attempt.Counters
import RangeTransfer.Proofs.Sink.Refinement
import RangeTransfer.Proofs.Attempt.Requests
import RangeTransfer.Proofs.Transfer.Attempts
import RangeTransfer.Proofs.Transfer.Resumption
import RangeTransfer.Proofs.Transfer.Schedules
import RangeTransfer.Proofs.Attempt.InFlight
import RangeTransfer.Proofs.Transfer.Window
import RangeTransfer.Proofs.Attempt.Points
import RangeTransfer.Proofs.Attempt.Orderly
import RangeTransfer.Proofs.Transfer.Moments
import RangeTransfer.Proofs.Transfer.Rising
import RangeTransfer.Proofs.Transfer.DirectCheckpoint
import RangeTransfer.Proofs.Transfer.OnDisk
import RangeTransfer.Proofs.Transfer.Backed
import RangeTransfer.Proofs.Transfer.Reported
import RangeTransfer.Proofs.Attempt.Unhindered
import RangeTransfer.Proofs.Remote.Faultless
import RangeTransfer.Proofs.Transfer.Begun
import RangeTransfer.Proofs.Transfer.Delivery
import RangeTransfer.Proofs.Attempt.Budget
import RangeTransfer.Proofs.Sink.Discard
import RangeTransfer.Proofs.Transfer.Journal
import RangeTransfer.Proofs.Transfer.LifeCycle
import RangeTransfer.Proofs.Transfer.Bounded
import RangeTransfer.Proofs.Attempt.Complete
import RangeTransfer.Proofs.Attempt.Cancelled
import RangeTransfer.Proofs.Attempt.Fetching
import RangeTransfer.Proofs.Transfer.Cancelled
import RangeTransfer.Proofs.Transfer.Retrying
import RangeTransfer.Proofs.Layout.Completeness
import RangeTransfer.Proofs.Layout.DirectoryNames
import RangeTransfer.Proofs.Layout.Places
import RangeTransfer.Proofs.Storage.Ways
import RangeTransfer.Proofs.Transfer.Setup
import RangeTransfer.Proofs.Transfer.Unstored
import RangeTransfer.Proofs.Transfer.SetupReport
import RangeTransfer.Proofs.Settings.Window
import RangeTransfer.Proofs.Layout.SafeNames
import RangeTransfer.Proofs.Path.Children
import RangeTransfer.Proofs.Layout.Identity
import RangeTransfer.Proofs.Attempt.Arithmetic
import RangeTransfer.Proofs.Sink.Overflow
import RangeTransfer.Proofs.Transfer.Arithmetic
import RangeTransfer.Proofs.Range.ContentRange
import RangeTransfer.Proofs.Settings.File
import RangeTransfer.Proofs.Attempt.WholeObject
import RangeTransfer.Proofs.Sink.Durable

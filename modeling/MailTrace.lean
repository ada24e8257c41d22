import MailTrace.Checksum
import MailTrace.Config.Arguments
import MailTrace.Config.Reading
import MailTrace.Config.Settings
import MailTrace.Delivery
import MailTrace.Format.Envelope
import MailTrace.Format.Transformer
import MailTrace.Import.Progress
import MailTrace.Import.Reader
import MailTrace.Import.Sync
import MailTrace.Json
import MailTrace.Line.Fault
import MailTrace.Line.Field
import MailTrace.Line.Header
import MailTrace.Line.Reading
import MailTrace.Mail.Address
import MailTrace.Mail.Status
import MailTrace.Main
import MailTrace.Net.IPAddress
import MailTrace.Payload.Delivery
import MailTrace.Payload.Local
import MailTrace.Payload.QueueManager
import MailTrace.Payload.Reading
import MailTrace.Payload.Relayed
import MailTrace.Payload.Server
import MailTrace.Payload.Types
import MailTrace.Record
import MailTrace.Service.Environment
import MailTrace.Service.Flow
import MailTrace.Service.Run
import MailTrace.Service.Stores
import MailTrace.Source.Address
import MailTrace.Source.Directory
import MailTrace.Source.Disk
import MailTrace.Source.Lines
import MailTrace.Source.Path
import MailTrace.Source.Rotation
import MailTrace.Source.Socket
import MailTrace.Source.Tail
import MailTrace.Store.Archive
import MailTrace.Store.Bounce
import MailTrace.Store.Facts
import MailTrace.Store.Keeper
import MailTrace.Store.Ledger
import MailTrace.Store.Numbered
import MailTrace.Store.Writer
import MailTrace.Table
import MailTrace.Task
import MailTrace.Text.Binary
import MailTrace.Text.Binary32
import MailTrace.Text.Binary64
import MailTrace.Text.Blank
import MailTrace.Text.Cut
import MailTrace.Text.Number
import MailTrace.Text.Utf8
import MailTrace.Time.Civil
import MailTrace.Time.DurationText
import MailTrace.Time.Instant
import MailTrace.Time.Rfc3339
import MailTrace.Time.Syslog
import MailTrace.Tracker.Closing
import MailTrace.Tracker.Entry
import MailTrace.Tracker.State
import MailTrace.Word
import MailTrace.Yaml.Node
import MailTrace.Yaml.Place
import MailTrace.Yaml.Scalar
import MailTrace.Yaml.Tag
import MailTrace.Yaml.Token
import MailTrace.Proofs.Rows
import MailTrace.Proofs.Store.Archive
import MailTrace.Proofs.Store.Paging
import MailTrace.Proofs.Tracker.Changes
import MailTrace.Proofs.Tracker.References
import MailTrace.Proofs.Service.References
import MailTrace.Proofs.Tracker.Standings
import MailTrace.Proofs.Tracker.Emission
import MailTrace.Proofs.Tracker.Lineage
import MailTrace.Proofs.Store.Writer
import MailTrace.Proofs.Tracker.Isolation
import MailTrace.Proofs.Import.Announcing
import MailTrace.Proofs.Store.Ledger
import MailTrace.Proofs.Service.Replacements
import MailTrace.Proofs.Text.Offsets
import MailTrace.Proofs.Time.Calendar
import MailTrace.Proofs.Time.Syslog
import MailTrace.Proofs.Line.Faults
import MailTrace.Proofs.Format.Years
import MailTrace.Proofs.Line.Slices
import MailTrace.Proofs.Format.Breaks
import MailTrace.Proofs.Import.Holding
import MailTrace.Import.Handshake
import MailTrace.Proofs.Import.Handshake
import MailTrace.Proofs.Import.Timing
import MailTrace.Proofs.Store.Positions
import MailTrace.Proofs.Tracker.Departed
import MailTrace.Proofs.Tracker.Deferrals
import MailTrace.Proofs.Store.Keeper
import MailTrace.Proofs.Tracker.Closing
import MailTrace.Proofs.Service.Shutdown
import MailTrace.Proofs.Tracker.Coherence
import MailTrace.Proofs.Line.Origins
import MailTrace.Proofs.Text.Numbers
import MailTrace.Proofs.Text.Searches
import MailTrace.Proofs.Net.Notation
import MailTrace.Proofs.Line.Headers
import MailTrace.Proofs.Format.Texts
import MailTrace.Proofs.Format.Acceptance
import MailTrace.Proofs.Line.Fields
import MailTrace.Proofs.Payload.Attempts
import MailTrace.Source.Stream
import MailTrace.Source.Queue
import MailTrace.Source.Follow
import MailTrace.Source.Serving
import MailTrace.Proofs.Time.ImpossibleDates
import MailTrace.Proofs.Text.Utf8
import MailTrace.Proofs.Source.Lines
import MailTrace.Proofs.Source.Streams
import MailTrace.Proofs.Source.Tails
import MailTrace.Proofs.Source.Following
import MailTrace.Proofs.Source.Readers
import MailTrace.Proofs.Source.Connections
import MailTrace.Proofs.Source.Serving
import MailTrace.Proofs.Source.Rotations
import MailTrace.Proofs.Tracker.Sweeps
import MailTrace.Proofs.Tracker.Silence
import MailTrace.Proofs.Tracker.Strays
import MailTrace.Proofs.Import.Finishing
import MailTrace.Proofs.Import.Percents
import MailTrace.Proofs.Import.Waiting
import MailTrace.Proofs.Store.Bounces
import MailTrace.Proofs.Store.Cleaning
import MailTrace.Proofs.Store.Trails
import MailTrace.Proofs.Service.Retries
import MailTrace.Proofs.Payload.Queues
import MailTrace.Proofs.Payload.Reports
import MailTrace.Proofs.Payload.Events
import MailTrace.Proofs.Line.Times
import MailTrace.Proofs.Format.Numbers
import MailTrace.Proofs.Format.Agreement
import MailTrace.Proofs.Config.Accepted
import MailTrace.Proofs.Source.Queues
import MailTrace.Proofs.Source.Directories
import MailTrace.Proofs.Checksums
import MailTrace.Proofs.Tracker.Ancestors
import MailTrace.Proofs.Time.Lengths
import MailTrace.Proofs.Config.Periods

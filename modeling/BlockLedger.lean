import BlockLedger.Backend
import BlockLedger.Bytes.Crc32
import BlockLedger.Bytes.LittleEndian
import BlockLedger.Catalog
import BlockLedger.Catalog.Listed
import BlockLedger.Cluster
import BlockLedger.Collector
import BlockLedger.Command.Disk
import BlockLedger.Command.Line
import BlockLedger.Daemon
import BlockLedger.Daemon.Notice
import BlockLedger.Daemon.Options
import BlockLedger.Entry
import BlockLedger.Event
import BlockLedger.History
import BlockLedger.History.Folder
import BlockLedger.History.Recorder
import BlockLedger.History.Refusing
import BlockLedger.History.Sink
import BlockLedger.Host
import BlockLedger.Identify.Bulk
import BlockLedger.Identify.Pending
import BlockLedger.Identify.Spread
import BlockLedger.Json.Printer
import BlockLedger.Json.Reader
import BlockLedger.Json.Skip
import BlockLedger.Ledger
import BlockLedger.Main
import BlockLedger.Number.Binary64
import BlockLedger.Number.Decimal
import BlockLedger.Number.Double
import BlockLedger.Number.Natural
import BlockLedger.Proofs.Cluster.Failure
import BlockLedger.Proofs.Cluster.Leftover
import BlockLedger.Proofs.Cluster.Provenance
import BlockLedger.Proofs.Cluster.Uncut
import BlockLedger.Proofs.Ring.Delivery
import BlockLedger.Proofs.Ring.Refusal
import BlockLedger.Proofs.Segment.RoundTrip
import BlockLedger.Proofs.Store.Race
import BlockLedger.Relation.Identity
import BlockLedger.Relation.Key
import BlockLedger.Relation.Partition
import BlockLedger.Relation.Relocation
import BlockLedger.Report.Figure
import BlockLedger.Report.Inspector
import BlockLedger.Report.Listing
import BlockLedger.Report.Segment
import BlockLedger.Ring
import BlockLedger.Runs
import BlockLedger.Segment.Fault
import BlockLedger.Segment.File
import BlockLedger.Segment.Name
import BlockLedger.Segment.Record
import BlockLedger.Settings
import BlockLedger.Settings.File
import BlockLedger.Stats.Histogram
import BlockLedger.Stats.Moments
import BlockLedger.Stats.Traffic
import BlockLedger.Storage.Chain
import BlockLedger.Storage.Device
import BlockLedger.Storage.Request
import BlockLedger.Storage.Slots
import BlockLedger.Store
import BlockLedger.Time.Calendar
import BlockLedger.Time.Reading
import BlockLedger.Wire.Primitive
import BlockLedger.Wire.Record
import BlockLedger.Worker
import BlockLedger.Workload
import BlockLedger.Workload.Client
import BlockLedger.Workload.Generator
import BlockLedger.Workload.Plan
import BlockLedger.Zstd.Bits
import BlockLedger.Zstd.Checksum
import BlockLedger.Zstd.Frame
import BlockLedger.Zstd.Fse
import BlockLedger.Zstd.Huffman
import BlockLedger.Zstd.Sequences
import BlockLedger.Proofs.Store.Coherence
import BlockLedger.Proofs.Cluster.Coherence
import BlockLedger.Proofs.Runs.Counting
import BlockLedger.Proofs.Cluster.Touches
import BlockLedger.Proofs.Cluster.Flights
import BlockLedger.Proofs.Cluster.Recording
import BlockLedger.Proofs.Cluster.Redirection
import BlockLedger.Proofs.Worker.LastCycle
import BlockLedger.Proofs.History.Survival
import BlockLedger.Proofs.Cluster.Relocations
import BlockLedger.Proofs.Cluster.Remembering
import BlockLedger.Proofs.Cluster.Retention
import BlockLedger.Proofs.Cluster.Agreement
import BlockLedger.Proofs.Cluster.Airborne
import BlockLedger.Proofs.Cluster.Crediting
import BlockLedger.Proofs.Cluster.Transparency
import BlockLedger.Proofs.Cluster.Outline
import BlockLedger.Proofs.Cluster.Erasure
import BlockLedger.Proofs.Store.Sharing
import BlockLedger.Proofs.Store.Creation
import BlockLedger.Proofs.History.Interruption
import BlockLedger.Proofs.Identify.NewDatabase
import BlockLedger.Proofs.Worker.Delivery
import BlockLedger.Proofs.Worker.Attendance
import BlockLedger.Proofs.Cluster.Permission
import BlockLedger.Proofs.Runs.Answers
import BlockLedger.Proofs.Runs.EmptyAccess
import BlockLedger.Proofs.Number.Fraction
import BlockLedger.Proofs.Ring.Queue
import BlockLedger.Proofs.Stats.EmptyBins
import BlockLedger.Proofs.Stats.Percentile
import BlockLedger.Proofs.Time.Gregorian
import BlockLedger.Proofs.Time.Spelling
import BlockLedger.Proofs.Segment.Spelling
import BlockLedger.Proofs.History.Strangers
import BlockLedger.Proofs.Segment.Damage
import BlockLedger.Proofs.History.Trimming
import BlockLedger.Proofs.Entry.ActiveSeconds
import BlockLedger.Proofs.Storage.Serving
import BlockLedger.Proofs.Storage.Reference
import BlockLedger.Proofs.Segment.Arithmetic
import BlockLedger.Proofs.Stats.Textbook
import BlockLedger.Proofs.Workload.Catalog
import BlockLedger.Proofs.Workload.Labour
import BlockLedger.Proofs.Stats.Summary
import BlockLedger.Proofs.Storage.BeyondEnd
import BlockLedger.Proofs.Workload.Generator

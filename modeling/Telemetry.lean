import Telemetry.Main
import Telemetry.Proofs.Aggregator.Placement
import Telemetry.Proofs.Aggregator.Run
import Telemetry.Proofs.Aggregator.Conservation
import Telemetry.Proofs.Aggregator.Flat
import Telemetry.Proofs.Aggregator.Interleaving
import Telemetry.Proofs.Extraction.Chain
import Telemetry.Proofs.Ordered
import Telemetry.Proofs.Metric.Identifier
import Telemetry.Proofs.Bucket.Canonical
import Telemetry.Proofs.Metric.Members
import Telemetry.Proofs.Bucket.Wire
import Telemetry.Proofs.Aggregator.Invariant
import Telemetry.Proofs.Bucket.Producers
import Telemetry.Proofs.Intake.Effects
import Telemetry.Proofs.Intake.Consistency
import Telemetry.Proofs.Intake.Flush
import Telemetry.Proofs.Binary64.Order
import Telemetry.Proofs.Metric.Merging
import Telemetry.Proofs.Metric.Sources
import Telemetry.Proofs.Aggregator.Grouping
import Telemetry.Proofs.Aggregator.Cascade
import Telemetry.Proofs.Pool.Interleaving
import Telemetry.Proofs.Batch.Grouping
import Telemetry.Proofs.Flush.Custody
import Telemetry.Proofs.Flush.Delivery
import Telemetry.Proofs.Relay.Run
import Telemetry.Proofs.Relay.Shutdown
import Telemetry.Proofs.Intake.Drops
import Telemetry.Proofs.Intake.Fates
import Telemetry.Proofs.Intake.Accounts
import Telemetry.Proofs.Aggregator.Restriction
import Telemetry.Proofs.Relay.Isolation
import Telemetry.Proofs.Json.Plain
import Telemetry.Proofs.Batch.Files
import Telemetry.Proofs.Metric.Grammar
import Telemetry.Proofs.Project.Sections
import Telemetry.Proofs.Project.Conditions
import Telemetry.Proofs.Project.Raising
import Telemetry.Proofs.Project.Sampling
import Telemetry.Proofs.Json.InOrder
import Telemetry.Proofs.Json.Views
import Telemetry.Proofs.Json.Raising
import Telemetry.Proofs.Extraction.Raising
import Telemetry.Proofs.Bucket.Raising
import Telemetry.Proofs.Intake.Totality
import Telemetry.Proofs.Glob
import Telemetry.Proofs.Transaction.Scrubbing
import Telemetry.Proofs.Interval
import Telemetry.Proofs.Binary64.Magnitude
import Telemetry.Proofs.Binary64.Zeros
import Telemetry.Proofs.Interval.Doubles
import Telemetry.Proofs.Event.Times
import Telemetry.Proofs.Transaction.Breakdowns
import Telemetry.Proofs.Transaction.Measurements
import Telemetry.Proofs.Transaction.Patterns
import Telemetry.Proofs.Transaction.Indices
import Telemetry.Proofs.Transaction.Points
import Telemetry.Proofs.Transaction.Series
import Telemetry.Proofs.Aggregator.Timing
import Telemetry.Proofs.Aggregator.Exactness
import Telemetry.Proofs.Bucket.Forms
import Telemetry.Proofs.Metric.Gauges
import Telemetry.Proofs.Binary64.Nearest
import Telemetry.Proofs.Binary64.Operations
import Telemetry.Proofs.Calendar.Gregorian
import Telemetry.Proofs.Calendar.Words
import Telemetry.Proofs.Calendar.Written
import Telemetry.Proofs.Calendar.Fraction
import Telemetry.Proofs.Calendar.Seconds
import Telemetry.Proofs.Extraction.Timestamps
import Telemetry.Proofs.Intake.Units
import Telemetry.Proofs.Transaction.Dropped
import Telemetry.Proofs.Transaction.Idempotence
import Telemetry.Proofs.Extraction.Forwarding
import Telemetry.Proofs.Metric.NormalForm
import Telemetry.Proofs.Topic
import Telemetry.Proofs.Fnv
import Telemetry.Proofs.Batch.Dispatch
import Telemetry.Proofs.Flush.Interleaving
import Telemetry.Proofs.Relay.Accounting
import Telemetry.Proofs.DropLog
import Telemetry.Proofs.Bucket.Hashing
import Telemetry.Proofs.Listener

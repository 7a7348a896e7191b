import Telemetry.Flush
import Telemetry.Intake

/-!
# A relay

Intake, the periodic flush and the shutdown around one aggregator.  A shutdown closes the aggregator
before it drains it, so that nothing is merged behind the drain; it happens once.
-/

namespace Telemetry

structure Relay (σ : Type) where
  intake : Intake
  flush : Flush σ
  partitions : Option UInt64 := none
  phase : Phase := .running
  /-- A shutdown has begun. -/
  shutdownBegun : Bool := false

namespace Relay

variable {σ : Type}

def aggregator (r : Relay σ) : Aggregator Float := r.intake.aggregator

def setAggregator (a : Aggregator Float) (r : Relay σ) : Relay σ :=
  { r with intake := { r.intake with aggregator := a } }

/-- Takes in an envelope for a project. -/
def process (clock : Intake.Clock) (envelope : Envelope) (project : Project) (r : Relay σ) :
    Except Extraction.EncodingError (Intake.Report × Relay σ) :=
  (r.intake.process r.phase clock envelope project).map fun (intake, report) =>
    (report, { r with intake })

/-- Submits batches of buckets and lets the workers send them; tells how many were accepted. -/
def dispatch (sink : Sink σ) (buckets : List (Bucket Float)) (r : Relay σ) : Nat × Relay σ :=
  let (n, flush) := r.flush.dispatch r.partitions buckets
  (n, { r with flush := flush.run sink })

/-- One round of the periodic flush: what is due leaves; tells how many buckets that were. -/
def tick (sink : Sink σ) (now : UInt64) (r : Relay σ) : Nat × Relay σ :=
  let (buckets, a) := r.aggregator.drainDue now
  (buckets.length, ((r.setAggregator a).dispatch sink buckets).2)

/-- Runs the periodic flush until so many buckets left in all, but for so many milliseconds at most.
While the clock stands still, the first round takes all that is due. -/
def awaitFlushed (sink : Sink σ) (now : UInt64) (patience target : Nat) (r : Relay σ) : Relay σ :=
  if r.flush.bucketsFlushed < target && r.flush.comesWithin patience then (r.tick sink now).2 else r

structure ShutdownReport where
  /-- Buckets that the final drain forced out. -/
  drained : Nat := 0
  /-- Some sends did not come back. -/
  timedOut : Bool := false
  deriving DecidableEq, Repr

/-- Refuses envelopes and values from now on. -/
def beginShutdown (r : Relay σ) : Relay σ :=
  { r.setAggregator r.aggregator.close with phase := .draining, shutdownBegun := true }

/-- Stops intake, sends everything that is left and stops the workers; a second shutdown does
nothing. -/
def shutdown (sink : Sink σ) (r : Relay σ) : ShutdownReport × Relay σ :=
  if r.shutdownBegun then ({}, r)
  else
    let r := r.beginShutdown
    let (buckets, a) := r.aggregator.drainAll
    let r := ((r.setAggregator a).dispatch sink buckets).2
    let (inTime, flush) := r.flush.shutdown sink
    (⟨buckets.length, !inTime⟩, { r with flush, phase := .stopped })

end Relay

end Telemetry

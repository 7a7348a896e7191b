import Telemetry.Batch
import Telemetry.Pool

/-!
# Flushing

Buckets that left the aggregator are grouped into batches, and the batches are sent by a pool of
workers.  Every batch ends in one of four ways: sent, failed in the outlet, refused by a closed
pool, which counts as failed, or given up in the queue when a bounded shutdown runs out of time.
-/

namespace Telemetry

/-- How a state takes batches. -/
structure Sink (σ : Type) where
  send : Batch → σ → Delivery × σ

/-- The sink of an outlet. -/
def Outlet.sink : Sink Outlet := ⟨Outlet.send⟩

structure Flush (σ : Type) where
  /-- Milliseconds between two rounds. -/
  interval : Int
  pool : Pool Batch
  /-- What the sink has taken. -/
  outlet : σ
  bucketsFlushed : Nat := 0
  batchesSent : Nat := 0
  batchesFailed : Nat := 0

namespace Flush

variable {σ : Type}

/-- The periodic flush cannot be set up. -/
inductive Fault where
  | noSink
  | noInterval
  deriving DecidableEq, Repr

def Fault.message : Fault → Bytes
  | .noSink => ascii "FlushScheduler requires a sink"
  | .noInterval => ascii "FlushScheduler tick interval must be positive"

/-- A flush with some workers and a round every so many milliseconds. -/
def create (workers : Nat) (interval : Int) (outlet : Option σ) : Except Fault (Flush σ) :=
  match outlet with
  | none => .error .noSink
  | some outlet =>
    if interval ≤ 0 then .error .noInterval
    else .ok { interval, pool := Pool.create workers, outlet }

/-- A round comes within so many milliseconds.  The clock counts nanoseconds in signed words of 64
bits, and an interval that it counts as negative is over at once. -/
def comesWithin (patience : Nat) (f : Flush σ) : Bool :=
  (Int64.ofInt f.interval * 1000000).toInt ≤ 1000000 * (patience : Int)

/-- A worker sends a batch that it has just taken. -/
def deliver (sink : Sink σ) (b : Batch) (f : Flush σ) : Flush σ :=
  match sink.send b f.outlet with
  | (.sent, outlet) =>
    { f with pool := f.pool.finishLast, outlet, batchesSent := f.batchesSent + 1 }
  | (.failed, outlet) =>
    { f with pool := f.pool.finishLast, outlet, batchesFailed := f.batchesFailed + 1 }
  | (.blocked, outlet) => { f with outlet }

/-- The workers take and send the batches of a queue as long as one of them is free. -/
def pump (sink : Sink σ) : (queue : List Batch) → Flush σ → Flush σ
  | [], f => f
  | b :: rest, f =>
    if f.pool.hasFreeWorker then pump sink rest (deliver sink b { f with pool := f.pool.take })
    else f

/-- The workers send what is queued. -/
def run (sink : Sink σ) (f : Flush σ) : Flush σ := pump sink f.pool.queued f

/-- Counts a batch and submits it; a closed pool fails it. -/
def submit (f : Flush σ) (b : Batch) : Flush σ × Bool :=
  let (accepted, pool) := f.pool.submit b
  ({ f with
      pool
      bucketsFlushed := f.bucketsFlushed + b.buckets.length
      batchesFailed := if accepted then f.batchesFailed else f.batchesFailed + 1 }, accepted)

/-- Submits the batches of some buckets and tells how many were accepted. -/
def dispatch (partitions : Option UInt64) (buckets : List (Bucket Float)) (f : Flush σ) :
    Nat × Flush σ :=
  (Batch.group partitions buckets).foldl (fun (n, f) b =>
    let (f, accepted) := f.submit b
    (if accepted then n + 1 else n, f)) (0, f)

/-- Closes the pool and waits for the sends, but not for those that block; tells whether all came
back. -/
def shutdown (sink : Sink σ) (f : Flush σ) : Bool × Flush σ :=
  let f := run sink { f with pool := f.pool.close }
  let (inTime, pool) := f.pool.endWait
  (inTime, { f with pool })

end Flush

end Telemetry

import Telemetry.Bucket

/-!
# The log of drops

Whatever a relay does not keep is counted by reason, and the latest drops are kept for inspection.
Clearing the log forgets the drops but not the counts.  Counts are modulo `2 ^ 64`.
-/

namespace Telemetry

namespace Drop

/-- Why data was dropped. -/
inductive Reason where
  | invalidMetric
  | invalidTimestamp
  | typeMismatch
  | invalidPayload
  | filtered
  | sampled
  | shuttingDown
  deriving DecidableEq, Repr

namespace Reason

def all : List Reason :=
  [.invalidMetric, .invalidTimestamp, .typeMismatch, .invalidPayload, .filtered, .sampled,
    .shuttingDown]

def label : Reason → String
  | .invalidMetric => "INVALID_METRIC"
  | .invalidTimestamp => "INVALID_TIMESTAMP"
  | .typeMismatch => "TYPE_MISMATCH"
  | .invalidPayload => "INVALID_PAYLOAD"
  | .filtered => "FILTERED"
  | .sampled => "SAMPLED"
  | .shuttingDown => "SHUTTING_DOWN"

end Reason

/-- What kind of data was dropped. -/
inductive Category where
  | metric
  | session
  | transaction
  deriving DecidableEq, Repr

namespace Category

def all : List Category := [.metric, .session, .transaction]

def label : Category → String
  | .metric => "metric"
  | .session => "session"
  | .transaction => "transaction"

end Category

end Drop

structure Drop where
  reason : Drop.Reason
  category : Drop.Category
  scope : Scope
  quantity : UInt64 := 1
  detail : Bytes := []
  deriving DecidableEq

/-- How much was dropped for each reason. -/
structure DropCounts where
  invalidMetric : UInt64 := 0
  invalidTimestamp : UInt64 := 0
  typeMismatch : UInt64 := 0
  invalidPayload : UInt64 := 0
  filtered : UInt64 := 0
  sampled : UInt64 := 0
  shuttingDown : UInt64 := 0
  deriving DecidableEq, Repr

namespace DropCounts

def get (c : DropCounts) : Drop.Reason → UInt64
  | .invalidMetric => c.invalidMetric
  | .invalidTimestamp => c.invalidTimestamp
  | .typeMismatch => c.typeMismatch
  | .invalidPayload => c.invalidPayload
  | .filtered => c.filtered
  | .sampled => c.sampled
  | .shuttingDown => c.shuttingDown

def add (c : DropCounts) (reason : Drop.Reason) (n : UInt64) : DropCounts :=
  match reason with
  | .invalidMetric => { c with invalidMetric := c.invalidMetric + n }
  | .invalidTimestamp => { c with invalidTimestamp := c.invalidTimestamp + n }
  | .typeMismatch => { c with typeMismatch := c.typeMismatch + n }
  | .invalidPayload => { c with invalidPayload := c.invalidPayload + n }
  | .filtered => { c with filtered := c.filtered + n }
  | .sampled => { c with sampled := c.sampled + n }
  | .shuttingDown => { c with shuttingDown := c.shuttingDown + n }

theorem get_add (c : DropCounts) (reason other : Drop.Reason) (n : UInt64) :
    (c.add reason n).get other = if other = reason then c.get other + n else c.get other := by
  cases reason <;> cases other <;> rfl

end DropCounts

structure DropLog where
  total : UInt64 := 0
  counts : DropCounts := {}
  /-- The latest drops, newest first. -/
  recent : List Drop := []
  deriving DecidableEq

namespace DropLog

/-- How many drops are kept. -/
def capacity : Nat := 1000

def record (log : DropLog) (d : Drop) : DropLog :=
  ⟨log.total + d.quantity, log.counts.add d.reason d.quantity, (d :: log.recent).take capacity⟩

/-- Records drops in order. -/
def recordAll (log : DropLog) (ds : List Drop) : DropLog := ds.foldl record log

def clear (log : DropLog) : DropLog := { log with recent := [] }

/-- The latest drops, newest first, at most as many as asked for. -/
def latest (log : DropLog) (n : Nat) : List Drop := log.recent.take n

end DropLog

end Telemetry

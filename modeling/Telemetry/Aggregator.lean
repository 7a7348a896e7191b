import Telemetry.Bucket

/-!
# The aggregator

Values are merged into buckets by key and leave again by draining.  The buckets lie in shards
chosen by the hash of their key, so that a merge concerns one shard only.  A merge is refused when
the aggregator is closed, when its time lies outside the accepted window, or when the bucket holds
another kind of value; a refused merge changes nothing.

Time arrives as an argument.  All sums of times are modulo `2 ^ 64`.
-/

namespace Telemetry

/-! ## Settings -/

namespace Aggregator

structure Settings where
  /-- The length of a time slot in seconds. -/
  interval : UInt64 := 10
  /-- How long a bucket waits after the end of its slot. -/
  initialDelay : UInt64 := 30
  /-- How long a bucket waits after its first value. -/
  debounceDelay : UInt64 := 10
  /-- How old and how far ahead a submission may be. -/
  maxPast : UInt64 := 432000
  maxFuture : UInt64 := 60
  deriving DecidableEq, Repr

/-- Slots without length cannot be told apart. -/
inductive SettingsError where
  | zeroInterval
  deriving DecidableEq, Repr

def SettingsError.message : SettingsError → Bytes
  | .zeroInterval => ascii "aggregator.bucket_interval must be greater than zero"

namespace Settings

def validate (s : Settings) : Except SettingsError Unit :=
  if s.interval = 0 then .error .zeroInterval else .ok ()

/-- The start of the slot of a time. -/
def truncate (s : Settings) (timestamp : UInt64) : UInt64 := timestamp - timestamp % s.interval

/-- The least accepted time. -/
def earliest (s : Settings) (now : UInt64) : UInt64 :=
  if s.maxPast < now then now - s.maxPast else 0

/-- The greatest accepted time. -/
def latest (s : Settings) (now : UInt64) : UInt64 := now + s.maxFuture

def accepts (s : Settings) (timestamp now : UInt64) : Bool :=
  s.earliest now ≤ timestamp && timestamp ≤ s.latest now

/-- When the bucket of a slot is due if its first value arrives now. -/
def dueAt (s : Settings) (slot now : UInt64) : UInt64 :=
  max (slot + s.interval + s.initialDelay) (now + s.debounceDelay)

end Settings

/-! ## Shards -/

/-- A stored bucket and the time from which it may leave. -/
structure Stored (ν : Type) where
  key : BucketKey
  dueAt : UInt64
  value : Value ν
  deriving DecidableEq

/-- The buckets that are guarded together; each key at most once. -/
abbrev Shard (ν : Type) := List (Stored ν)

namespace Shard

variable {ν : Type}

/-- Removes the buckets of a class and returns them. -/
def take (leaves : Stored ν → Bool) (s : Shard ν) : List (Stored ν) × Shard ν :=
  (s.filter leaves, s.filter fun b => !leaves b)

/-- Puts a value in the place of the one that the bucket of a key holds. -/
def replace (key : BucketKey) (value : Value ν) (s : Shard ν) : Shard ν :=
  s.map fun b => if b.key = key then { b with value } else b

variable [Add ν] [LT ν] [DecidableLT ν]

/-- Merges a value into the bucket of a key; `none` if it holds another kind of value.  A key that is
not there gets a new bucket in front of the others. -/
def put? (key : BucketKey) (dueAt : UInt64) (value : Value ν) (s : Shard ν) : Option (Shard ν) :=
  match s.find? fun b => b.key = key with
  | none => some (⟨key, dueAt, value⟩ :: s)
  | some b => (b.value.merge? value).map fun v => s.replace key v

end Shard

/-! ## Outcomes -/

/-- What became of a merge. -/
inductive Outcome where
  | ok
  | typeMismatch
  | invalidTimestamp
  | shuttingDown
  deriving DecidableEq, Repr

def Outcome.label : Outcome → String
  | .ok => "ok"
  | .typeMismatch => "type_mismatch"
  | .invalidTimestamp => "invalid_timestamp"
  | .shuttingDown => "shutting_down"

end Aggregator

/-! ## The aggregator -/

structure Aggregator (ν : Type) where
  settings : Aggregator.Settings
  shards : List (Aggregator.Shard ν)
  closed : Bool

namespace Aggregator

variable {ν : Type}

/-- The number of shards unless another is asked for. -/
def defaultShards : Nat := 16

/-- An empty aggregator; it has at least one shard. -/
def empty (settings : Settings) (shards : Nat := defaultShards) : Aggregator ν :=
  ⟨settings, List.replicate (max shards 1) [], false⟩

def create (settings : Settings) (shards : Nat := defaultShards) :
    Except SettingsError (Aggregator ν) :=
  settings.validate.map fun _ => empty settings shards

/-- The index of the shard that keeps a key. -/
def shardOf (a : Aggregator ν) (key : BucketKey) : Nat := key.hash.toNat % a.shards.length

/-- All stored buckets. -/
def stored (a : Aggregator ν) : List (Stored ν) := a.shards.flatten

/-- How many buckets are stored. -/
def size (a : Aggregator ν) : Nat := a.stored.length

/-- Refuses every later merge. -/
def close (a : Aggregator ν) : Aggregator ν := { a with closed := true }

/-- A stored bucket as it leaves. -/
def release (settings : Settings) (b : Stored ν) : Bucket ν := ⟨b.key, settings.interval, b.value⟩

/-- Removes the stored buckets of a class and returns them. -/
def drain (leaves : Stored ν → Bool) (a : Aggregator ν) : List (Bucket ν) × Aggregator ν :=
  (a.shards.flatMap fun s => (s.take leaves).1.map (release a.settings),
    { a with shards := a.shards.map fun s => (s.take leaves).2 })

/-- Removes and returns the buckets that are due. -/
def drainDue (now : UInt64) (a : Aggregator ν) : List (Bucket ν) × Aggregator ν :=
  a.drain fun b => b.dueAt ≤ now

/-- Removes and returns all buckets. -/
def drainAll (a : Aggregator ν) : List (Bucket ν) × Aggregator ν := a.drain fun _ => true

variable [Add ν] [LT ν] [DecidableLT ν]

/-- Merges a value into the bucket of a key, whose time is that of the submission. -/
def merge (now : UInt64) (key : BucketKey) (value : Value ν) (a : Aggregator ν) :
    Outcome × Aggregator ν :=
  if a.closed then (.shuttingDown, a)
  else if !a.settings.accepts key.timestamp now then (.invalidTimestamp, a)
  else
    let key := { key with timestamp := a.settings.truncate key.timestamp }
    let i := a.shardOf key
    let shard := (a.shards[i]?).getD []
    match Shard.put? key (a.settings.dueAt key.timestamp now) value shard with
    | some shard => (.ok, { a with shards := a.shards.set i shard })
    | none => (.typeMismatch, a)

/-- Merges a point of a project. -/
def mergePoint (now : UInt64) (scope : Scope) (p : Point ν) (a : Aggregator ν) :
    Outcome × Aggregator ν :=
  a.merge now ⟨scope, p.name, p.tags, p.timestamp⟩ p.value

/-- Merges a bucket that another relay aggregated; its width plays no part. -/
def mergeBucket (now : UInt64) (b : Bucket ν) (a : Aggregator ν) : Outcome × Aggregator ν :=
  a.merge now b.key b.value

end Aggregator

end Telemetry

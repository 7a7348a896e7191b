import Telemetry.Metric.Identifier
import Telemetry.Ordered

/-!
# Points and buckets

A point is one measured value with its own time.  A bucket holds the merged value of all points of
one project, name, tags and time slot.  The hash of a key is over the bytes that `BucketKey.bytes`
writes, in which every text is terminated and the tags are counted.
-/

namespace Telemetry

/-- Whose data it is: an organization and one of its projects. -/
structure Scope where
  org : UInt64
  project : UInt64
  deriving DecidableEq, Repr

/-- A measured value before it is put into a bucket. -/
structure Point (ν : Type) where
  /-- The full metric name. -/
  name : Bytes
  value : Value ν
  /-- Seconds since 1970, not yet cut to a time slot. -/
  timestamp : UInt64
  tags : Tags
  deriving DecidableEq

/-- What tells buckets apart. -/
structure BucketKey where
  scope : Scope
  name : Bytes
  tags : Tags
  /-- The start of the time slot. -/
  timestamp : UInt64
  deriving DecidableEq

namespace BucketKey

/-- What the hash of a key is taken over. -/
def bytes (k : BucketKey) : Bytes :=
  Fnv.word k.scope.org ++ Fnv.word k.scope.project ++ Fnv.word k.timestamp ++
    Fnv.terminated k.name ++ Fnv.word (UInt64.ofNat k.tags.length) ++
    k.tags.flatMap fun (name, value) => Fnv.terminated name ++ Fnv.terminated value

def hash (k : BucketKey) : UInt64 := Fnv.hash64 k.bytes

end BucketKey

structure Bucket (ν : Type) where
  key : BucketKey
  /-- The length of the time slot in seconds. -/
  width : UInt64
  value : Value ν
  deriving DecidableEq

namespace Bucket

def kind {ν : Type} (b : Bucket ν) : Kind := b.value.kind

end Bucket

end Telemetry

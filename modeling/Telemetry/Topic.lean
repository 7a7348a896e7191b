import Telemetry.Bucket

/-!
# Where batches go

A project's batches carry the number of one partition, a function of the project alone.  A
processing relay writes to topics: to one, or to several by shards of the organization id, where
each mapping entry holds from its shard up to the next entry.  A validated mapping starts at shard
0, so every organization has a topic.
-/

namespace Telemetry

/-! ## Partitions -/

/-- The partition of a project: none if partitioning is off, 0 of 0 partitions. -/
def Scope.partition? (partitions : Option UInt64) (scope : Scope) : Option UInt64 :=
  partitions.map fun n =>
    if n = 0 then 0 else Fnv.hash64 (Fnv.word scope.org ++ Fnv.word scope.project) % n

/-! ## Topics -/

/-- One topic by name, or shards mapped to topics. -/
structure Topic where
  name : Bytes := []
  /-- The number of shards; 0 for one topic. -/
  shards : UInt64 := 0
  /-- First shard and topic, ascending. -/
  mapping : Entries UInt64 Bytes := []
  deriving DecidableEq

namespace Topic

inductive Fault where
  | noName
  | noFirstShard
  | beyondShards
  deriving DecidableEq, Repr

def Fault.message : Fault → Bytes
  | .noName => ascii "topic requires a name when not sharded"
  | .noFirstShard => ascii "sharded topic mapping must start at shard 0"
  | .beyondShards => ascii "sharded topic mapping refers to a shard beyond 'shards'"

def isSharded (t : Topic) : Bool := 0 < t.shards

/-- What is wrong with the mapping of a number of shards. -/
def mappingFault? (shards : UInt64) : Entries UInt64 Bytes → Option Fault
  | [] => some .noFirstShard
  | first :: rest =>
    if first.1 ≠ 0 then some .noFirstShard
    else if shards ≤ ((first :: rest).getLast (by simp)).1 then some .beyondShards
    else none

/-- What is wrong with the topic. -/
def fault? (t : Topic) : Option Fault :=
  if t.isSharded then mappingFault? t.shards t.mapping
  else if t.name.isEmpty then some .noName
  else none

/-- A topic without fault. -/
structure Router where
  topic : Topic
  faultless : topic.fault? = none

namespace Router

def ofTopic (t : Topic) : Except Fault Router :=
  match h : t.fault? with
  | some f => .error f
  | none => .ok ⟨t, h⟩

end Router

/-- The entries of a mapping that start at a shard or before it. -/
def upTo (shard : UInt64) (mapping : Entries UInt64 Bytes) : Entries UInt64 Bytes :=
  mapping.filter fun e => e.1 ≤ shard

/-- A mapping without fault has an entry at or before every shard. -/
theorem upTo_ne_nil {shards : UInt64} {mapping : Entries UInt64 Bytes}
    (h : mappingFault? shards mapping = none) (shard : UInt64) : upTo shard mapping ≠ [] := by
  cases mapping with
  | nil => simp [mappingFault?] at h
  | cons first rest =>
    by_cases hz : first.1 = 0
    · simp [upTo, hz]
    · simp [mappingFault?, hz] at h

/-- The topic of an organization: that of the last entry at or before its shard. -/
def Router.topicFor (r : Router) (org : UInt64) : Bytes :=
  if h : r.topic.isSharded then
    ((upTo (org % r.topic.shards) r.topic.mapping).getLast
      (upTo_ne_nil (by simpa [fault?, h] using r.faultless) _)).2
  else r.topic.name

end Topic

end Telemetry

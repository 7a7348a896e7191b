import Telemetry.Service

/-!
# The configuration file

The settings of a service as a JSON object with one section per concern.  A member that is missing
has its default; one of the wrong kind is a misuse.
-/

namespace Telemetry.Service.Settings

open Json

/-- The view of the value at a path, or a default if there is none. -/
def valueAt {α : Type} (view : Json → Option α) (j : Json) (path : List String) (default : α) :
    Except Misuse α :=
  match j.path? path with
  | some v => v.expect view
  | none => .ok default

/-- The word at a path. -/
def word (j : Json) (path : List String) (default : UInt64) : Except Misuse UInt64 :=
  valueAt Config.natural? j path default

/-- The text at a path. -/
def text (j : Json) (path : List String) (default : Bytes) : Except Misuse Bytes :=
  valueAt Json.string? j path default

/-- A flag that is off by default. -/
def flag (j : Json) (path : List String) : Except Misuse Bool := valueAt Json.bool? j path false

def readAggregator (j : Json) : Except Misuse Aggregator.Settings := do
  let default : Aggregator.Settings := {}
  return ⟨← word j ["aggregator", "bucket_interval"] default.interval,
    ← word j ["aggregator", "initial_delay"] default.initialDelay,
    ← word j ["aggregator", "debounce_delay"] default.debounceDelay,
    ← word j ["aggregator", "max_secs_in_past"] default.maxPast,
    ← word j ["aggregator", "max_secs_in_future"] default.maxFuture⟩

def readPartitions (j : Json) : Except Misuse (Option UInt64) :=
  valueAt (fun v => (Config.natural? v).map some) j ["aggregator", "flush_partitions"] none

/-- First shard and topic of an entry whose name is a number. -/
def shardTopic? (entry : Bytes × Json) : Option (UInt64 × Bytes) := do
  let start ← Bytes.decimal? entry.1
  guard (start < UInt64.size)
  return (UInt64.ofNat start, ← entry.2.string?)

/-- The topics of shards, written as an object. -/
def mapping? (j : Json) : Option (Entries UInt64 Bytes) :=
  (j.object?.bind fun members => members.mapM shardTopic?).map Ordered.ofList

def readTopic (j : Json) : Except Misuse Topic := do
  let path := ["processing", "topics", "metrics"]
  let default : Topic := { name := ascii "ingest-metrics" }
  return ⟨← text j (path ++ ["name"]) default.name, ← word j (path ++ ["shards"]) default.shards,
    ← valueAt mapping? j (path ++ ["mapping"]) default.mapping⟩

def readListening (j : Json) : Except Misuse (Option Listening) := do
  let default : Listening := {}
  if ← flag j ["ingestion", "udp", "enable"] then
    return some ⟨← text j ["ingestion", "udp", "host"] default.host,
      (← word j ["ingestion", "udp", "bufferSize"] (UInt64.ofNat default.buffer)).toNat⟩
  else return none

/-- The settings of a JSON value. -/
def read (j : Json) : Except Misuse Settings := do
  let default : Settings := {}
  return {
    aggregator := ← readAggregator j
    partitions := ← readPartitions j
    workers := (← word j ["limits", "max_concurrent_flushes"] (UInt64.ofNat default.workers)).toNat
    processing := ← flag j ["relay", "processing"]
    topic := ← readTopic j
    topicDirectory := ← text j ["processing", "output_dir"] default.topicDirectory
    outputPath := ← text j ["relay", "output_path"] default.outputPath
    projectPath := ← text j ["projects", "path"] default.projectPath
    listening := ← readListening j
    listenerScope := ⟨← word j ["ingestion", "default_scope", "organization_id"] 0,
      ← word j ["ingestion", "default_scope", "project_id"] 0⟩ }

end Telemetry.Service.Settings

import Telemetry.Bucket.Wire
import Telemetry.Topic

/-!
# Batches and where they are written

Buckets that leave together are grouped by project; each group is a batch with the partition of its
project.  An outlet takes batches: it drops them, hands them to a receiver, writes one line per
batch to a file, or writes one message per bucket to the topic of the organization.  A batch that an
outlet fails to take is lost.
-/

namespace Telemetry

/-! ## Batches -/

instance : LT Scope := ⟨fun a b => a.org < b.org ∨ (a.org = b.org ∧ a.project < b.project)⟩

instance : DecidableLT Scope := fun a b =>
  inferInstanceAs (Decidable (a.org < b.org ∨ (a.org = b.org ∧ a.project < b.project)))

/-- Buckets of one project on their way out. -/
structure Batch where
  scope : Scope
  /-- Set if partitioning is on. -/
  partition : Option UInt64
  buckets : List (Bucket Float)
  deriving DecidableEq

namespace Batch

/-- The projects of some buckets, ascending. -/
def scopes (buckets : List (Bucket Float)) : List Scope :=
  (Ordered.ofList (buckets.map fun b => (b.key.scope, ()))).map Prod.fst

/-- One batch per project, each with its buckets in their order. -/
def group (partitions : Option UInt64) (buckets : List (Bucket Float)) : List Batch :=
  (scopes buckets).map fun s =>
    ⟨s, s.partition? partitions, buckets.filter fun b => b.key.scope = s⟩

/-- The text that names the partition of a batch. -/
def partitionText? (b : Batch) : Option Bytes := b.partition.map fun n => Bytes.decimal n.toNat

/-- The header that carries the partition. -/
def partitionHeader : Bytes := ascii "X-Sentry-Relay-Shard"

/-- A batch as a JSON object. -/
def json (b : Batch) : Json :=
  .object [(ascii "buckets", .array (b.buckets.map (Wire.bucketJson false))),
    (ascii "headers", .object ((b.partitionText?.map fun s =>
      (partitionHeader, Json.string s)).toList)),
    (ascii "project_id", .number (.unsigned b.scope.project))]

end Batch

/-! ## Files -/

/-- A file that is only added to; nothing can be added to a full one. -/
structure TextFile where
  text : Bytes := []
  full : Bool := false
  deriving DecidableEq

/-- What became of a batch. -/
inductive Delivery where
  | sent
  | failed
  /-- The send does not come back. -/
  | blocked
  deriving DecidableEq, Repr

namespace TextFile

/-- Adds a line. -/
def addLine (line : Bytes) (f : TextFile) : Delivery × TextFile :=
  if f.full then (.failed, f) else (.sent, { f with text := f.text ++ line ++ [byte '\n'] })

/-- Adds a batch as a line of JSON; a batch without text adds nothing. -/
def addBatch (b : Batch) (f : TextFile) : Delivery × TextFile :=
  match b.json.dump? with
  | some line => f.addLine line
  | none => (.failed, f)

end TextFile

/-- The files of topics by the name of the file, which are created when first written to.  Topics
whose names differ only after a NUL byte share a file. -/
structure TopicFiles where
  /-- Where the files are. -/
  directory : Bytes
  files : Entries Bytes TextFile := []
  /-- The topics whose files are full from the start. -/
  full : List Bytes := []
  deriving DecidableEq

namespace TopicFiles

/-- The longest name of a file. -/
def maxFileName : Nat := 255

/-- The longest path of a file. -/
def maxPath : Nat := 4095

/-- A file can have the name: it is neither empty nor too long, and names no directory. -/
def isFileName (name : Bytes) : Bool :=
  name ∉ [[], ascii ".", ascii ".."] && name.length ≤ maxFileName

/-- The file that a path leads to from the directory of the topics.  It is in that directory or in
the one above, which is there too; no other directory is. -/
def fileAt? (path : Bytes) : Option Bytes :=
  let steps := Bytes.split (byte '/') path
  let way := steps.dropLast.filter (· ∉ [[], ascii "."])
  if path.head? = some (byte '/') then none
  else (steps.getLast?.filter isFileName).bind fun name =>
    if way = [] then some name
    else if way = [ascii ".."] then some (ascii "../" ++ name)
    else none

/-- The name of the file of a topic, absent if no file can be opened for it. -/
def fileName? (t : TopicFiles) (topic : Bytes) : Option Bytes :=
  let path := Bytes.untilNul (topic ++ ascii ".jsonl")
  if t.directory.length + 1 + path.length ≤ maxPath then fileAt? path else none

/-- The file of a name. -/
def file (t : TopicFiles) (name : Bytes) : TextFile :=
  (Ordered.get? name t.files).getD { full := t.full.any (t.fileName? · = some name) }

/-- Adds a message: the key, a tab and the text on one line. -/
def addMessage (topic key text : Bytes) (t : TopicFiles) : Delivery × TopicFiles :=
  match t.fileName? topic with
  | some name =>
    let (delivery, file) := (t.file name).addLine (key ++ byte '\t' :: text)
    (delivery, { t with files := Ordered.insert name file t.files })
  | none => (.failed, t)

/-- Adds a message per bucket; the first one that fails ends the batch. -/
def addBuckets (topic key : Bytes) : List (Bucket Float) → TopicFiles → Delivery × TopicFiles
  | [], t => (.sent, t)
  | b :: rest, t => match (Wire.bucketJson true b).dump? with
    | none => (.failed, t)
    | some text => match t.addMessage topic key text with
      | (.sent, t) => addBuckets topic key rest t
      | (delivery, t) => (delivery, t)

/-- Adds a batch to the topic of its organization. -/
def addBatch (router : Topic.Router) (b : Batch) (t : TopicFiles) : Delivery × TopicFiles :=
  addBuckets (router.topicFor b.scope.org) (Bytes.decimal b.scope.org.toNat) b.buckets t

end TopicFiles

/-! ## Outlets -/

/-- Where batches go, with what has arrived there. -/
inductive Outlet where
  /-- Nothing is kept. -/
  | discard
  /-- A receiver that refuses batches of some projects. -/
  | receiver (refused : List UInt64) (received : List Batch)
  /-- Every send blocks. -/
  | stuck
  | file (f : TextFile)
  | topics (router : Topic.Router) (files : TopicFiles)

namespace Outlet

/-- An outlet cannot be set up. -/
inductive Fault where
  | cannotOpenFile
  | noProducer
  | topic (fault : Topic.Fault)
  deriving DecidableEq, Repr

def Fault.message : Fault → Bytes
  | .cannotOpenFile => ascii "Failed to open upstream output file"
  | .noProducer => ascii "TopicBatchSink requires a producer"
  | .topic fault => fault.message

/-- Takes a batch. -/
def send (b : Batch) : Outlet → Delivery × Outlet
  | .discard => (.sent, .discard)
  | .receiver refused received =>
    if refused.contains b.scope.project then (.failed, .receiver refused received)
    else (.sent, .receiver refused (received ++ [b]))
  | .stuck => (.blocked, .stuck)
  | .file f =>
    let (delivery, f) := f.addBatch b
    (delivery, .file f)
  | .topics router files =>
    let (delivery, files) := files.addBatch router b
    (delivery, .topics router files)

/-- The files of an outlet by name, given that of the file for the next relay. -/
def files (output : Bytes) : Outlet → Entries Bytes TextFile
  | .file f => [(output, f)]
  | .topics _ t => t.files
  | .discard | .receiver .. | .stuck => []

/-- An outlet without the texts that have arrived in its files. -/
def withoutTexts : Outlet → Outlet
  | .file f => .file { f with text := [] }
  | .topics router t =>
    .topics router { t with files := t.files.map fun (name, f) => (name, { f with text := [] }) }
  | o => o

end Outlet

end Telemetry

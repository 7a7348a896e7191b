import Telemetry.Aggregator
import Telemetry.Bucket.Wire
import Telemetry.DropLog
import Telemetry.Extraction
import Telemetry.Metric.Line

/-!
# Intake

The items of an envelope are taken in one after another: metrics and buckets go into the aggregator,
sessions and transactions are passed on after their metrics were extracted.  Whatever is not kept is
recorded as dropped, in the scope of the project.  Nothing is taken in unless the service is running
and the project is enabled.

The clock is read anew at every merge, so the readings arrive as a function of the merge.
-/

namespace Telemetry

/-- The life of a service. -/
inductive Phase where
  | running
  | draining
  | stopped
  deriving DecidableEq, Repr

namespace Phase

def all : List Phase := [.running, .draining, .stopped]

def label : Phase → String
  | .running => "RUNNING"
  | .draining => "DRAINING"
  | .stopped => "STOPPED"

end Phase

/-- What intake changes, besides the envelope at hand. -/
structure Intake where
  aggregator : Aggregator Float
  log : DropLog := {}
  /-- Envelopes seen, and those of them refused as a whole. -/
  envelopes : Nat := 0
  rejected : Nat := 0

namespace Intake

/-- An item on its way to the next relay. -/
structure Forwarded where
  item : Item
  /-- Its metrics were extracted here. -/
  extractedHere : Bool
  deriving DecidableEq

/-- What became of an envelope. -/
structure Report where
  accepted : Bool := false
  /-- Items dropped as a whole. -/
  dropped : Nat := 0
  /-- Points extracted from sessions and transactions. -/
  extracted : Nat := 0
  /-- Values that the aggregator took. -/
  merged : Nat := 0
  /-- Items that go on to the next relay, in order. -/
  forwarded : List Forwarded := []

/-- The intake and the report on the envelope so far. -/
abbrev Progress := Intake × Report

/-- The clock readings that the merges of an envelope see, by the number of the item and of the merge
among those of the item. -/
abbrev Clock := Nat → Nat → UInt64

/-- A clock that stands still while an envelope is taken in. -/
def Clock.still (now : UInt64) : Clock := fun _ _ => now

/-! ## Steps -/

def record (d : Drop) (p : Progress) : Progress := ({ p.1 with log := p.1.log.record d }, p.2)

/-- An item is dropped as a whole. -/
def dropItem (d : Drop) (p : Progress) : Progress :=
  record d (p.1, { p.2 with dropped := p.2.dropped + 1 })

/-- An item goes on as extraction left it. -/
def forward (r : Extraction.Result) (p : Progress) : Progress :=
  (p.1, { p.2 with forwarded := p.2.forwarded ++ [⟨r.item, r.decision = .extracted⟩] })

/-- The reason under which a refused merge is recorded. -/
def dropReason? : Aggregator.Outcome → Option Drop.Reason
  | .ok => none
  | .typeMismatch => some .typeMismatch
  | .invalidTimestamp => some .invalidTimestamp
  | .shuttingDown => some .shuttingDown

/-- Merges a value and counts it, or records why it was refused. -/
def merge (now : UInt64) (category : Drop.Category) (key : BucketKey) (value : Value Float)
    (p : Progress) : Progress :=
  let (outcome, aggregator) := p.1.aggregator.merge now key value
  let p : Progress := ({ p.1 with aggregator }, p.2)
  match dropReason? outcome with
  | none => (p.1, { p.2 with merged := p.2.merged + 1 })
  | some reason =>
    record ⟨reason, category, key.scope, 1, key.name⟩ p

/-- Merges values in order, each at a clock reading of its own. -/
def mergeAll (clock : Nat → UInt64) (category : Drop.Category)
    (values : List (BucketKey × Value Float)) (p : Progress) : Progress :=
  values.zipIdx.foldl (fun p (x, n) => merge (clock n) category x.1 x.2 p) p

/-- What a point of a project submits. -/
def submission (scope : Scope) (x : Point Float) : BucketKey × Value Float :=
  (⟨scope, x.name, x.tags, x.timestamp⟩, x.value)

/-- Merges points of a project in order. -/
def mergePoints (clock : Nat → UInt64) (category : Drop.Category) (scope : Scope)
    (points : List (Point Float)) (p : Progress) : Progress :=
  mergeAll clock category (points.map (submission scope)) p

/-- Counts extracted points and merges them. -/
def mergeExtracted (clock : Nat → UInt64) (category : Drop.Category) (scope : Scope)
    (points : List (Point Float)) (p : Progress) : Progress :=
  mergePoints clock category scope points
    (p.1, { p.2 with extracted := p.2.extracted + points.length })

/-! ## Items -/

/-- The detail of a faulty line. -/
def lineDetail (n : Nat) (fault : Line.Fault) : Bytes :=
  ascii "line " ++ Bytes.decimal n ++ ascii ": " ++ fault.message

/-- Submission lines: the faulty ones are recorded, then the others merged. -/
def metrics (clock : Nat → UInt64) (receivedAt : UInt64) (scope : Scope) (payload : Bytes)
    (p : Progress) : Progress :=
  let p := (Line.faults payload receivedAt).foldl (fun p (n, fault) =>
    record ⟨.invalidMetric, .metric, scope, 1, lineDetail n fault⟩ p) p
  mergePoints clock .metric scope (Line.points payload receivedAt) p

/-- A batch of buckets: the faulty entries are recorded, then the others merged. -/
def buckets (clock : Nat → UInt64) (scope : Scope) (payload : Bytes) (p : Progress) : Progress :=
  match Wire.readAll? payload scope with
  | none =>
    dropItem ⟨.invalidPayload, .metric, scope, 1, Wire.notBatch⟩ p
  | some results =>
    let p := (Wire.faults results).foldl (fun p fault =>
      record ⟨.invalidMetric, .metric, scope, 1, fault.message⟩ p) p
    mergeAll clock .metric ((Wire.buckets results).map fun b => (b.key, b.value)) p

/-- The JSON object of a payload. -/
def object? (payload : Bytes) : Option Json :=
  (Json.parse? payload).filter fun j => j.object?.isSome

/-- A session is passed on after its metrics were extracted. -/
def session (clock : Nat → UInt64) (sdk : Option Bytes) (project : Project) (item : Item)
    (p : Progress) : Progress :=
  match object? item.payload with
  | none =>
    dropItem ⟨.invalidPayload, .session, project.scope, 1,
      ascii "session is not a JSON object"⟩ p
  | some value =>
    let r := Extraction.session sdk project.config item value
    forward r (mergeExtracted clock .session project.scope r.points p)

/-- Why a transaction is not passed on, with a detail. -/
def unwanted? (config : Config) (event : Json) : Option (Drop.Reason × Bytes) :=
  match config.filter.reason? event with
  | some reason => some (.filtered, ascii reason.label)
  | none =>
    let decision := config.sampling.decide event
    if decision.keep then none
    else some (.sampled, ascii "rule " ++ Bytes.decimal (decision.rule.getD 0).toNat)

/-- A transaction is passed on, unless it is unwanted, after its metrics were extracted. -/
def transaction (clock : Nat → UInt64) (project : Project) (item : Item) (p : Progress) :
    Except Extraction.EncodingError Progress :=
  match object? item.payload with
  | none =>
    .ok (dropItem ⟨.invalidPayload, .transaction, project.scope, 1,
      ascii "event is not a JSON object"⟩ p)
  | some event => match unwanted? project.config event with
    | some (reason, detail) =>
      .ok (dropItem ⟨reason, .transaction, project.scope, 1, detail⟩ p)
    | none =>
      (Extraction.transaction project.config item event).map fun r =>
        forward r (mergeExtracted clock .transaction project.scope r.points p)

/-- One item of an envelope. -/
def item (clock : Nat → UInt64) (envelope : Envelope) (project : Project) (p : Progress)
    (i : Item) : Except Extraction.EncodingError Progress :=
  match i.kind with
  | .metrics => .ok (metrics clock envelope.receivedAt project.scope i.payload p)
  | .buckets => .ok (buckets clock project.scope i.payload p)
  | .session => .ok (session clock envelope.sdk project i p)
  | .transaction => transaction clock project i p

/-! ## Envelopes -/

/-- Takes in an envelope for a project. -/
def process (phase : Phase) (clock : Clock) (envelope : Envelope) (project : Project) (s : Intake) :
    Except Extraction.EncodingError Progress :=
  let s := { s with envelopes := s.envelopes + 1 }
  if phase ≠ .running ∨ project.disabled then .ok ({ s with rejected := s.rejected + 1 }, {})
  else
    envelope.items.zipIdx.foldlM (fun p e => item (clock e.2) envelope project p e.1)
      (s, { accepted := true })

end Intake

end Telemetry

import Telemetry.Bytes

/-!
# Envelopes

An envelope is what a client sends at once: items of four kinds.  An item keeps a flag that its
metrics were extracted, which travels with it from relay to relay.
-/

namespace Telemetry

/-- The kinds of item. -/
inductive ItemKind where
  | session
  | transaction
  | metrics
  | buckets
  deriving DecidableEq, Repr

namespace ItemKind

def all : List ItemKind := [.session, .transaction, .metrics, .buckets]

def label : ItemKind → String
  | .session => "session"
  | .transaction => "transaction"
  | .metrics => "metrics"
  | .buckets => "metric_buckets"

end ItemKind

structure Item where
  kind : ItemKind
  payload : Bytes
  /-- Metrics were extracted from it. -/
  extracted : Bool := false
  deriving DecidableEq

structure Envelope where
  /-- The project the client names; the data belongs to the project it is processed for. -/
  project : UInt64
  /-- The client library. -/
  sdk : Option Bytes
  receivedAt : UInt64
  items : List Item
  deriving DecidableEq

end Telemetry

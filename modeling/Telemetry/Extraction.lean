import Telemetry.Envelope
import Telemetry.Json.Reader
import Telemetry.Json.Writer
import Telemetry.Transaction

/-!
# Extraction along the way

Metrics are extracted from a session or transaction at most once on its way through several relays.
The relay that extracts sets the flag of the item and passes a transaction on in its normal form; a
relay that does not extract passes the item on as it came.
-/

namespace Telemetry

namespace Extraction

/-- What a relay decides about an item. -/
inductive Decision where
  | extracted
  | alreadyExtracted
  | disabled
  | invalid
  deriving DecidableEq, Repr

def Decision.label : Decision → String
  | .extracted => "EXTRACTED"
  | .alreadyExtracted => "ALREADY_EXTRACTED"
  | .disabled => "DISABLED"
  | .invalid => "INVALID"

/-- A value has no text because a string in it is no UTF-8. -/
inductive EncodingError where
  | notUtf8
  deriving DecidableEq, Repr

/-- The decision, the points, and the item as it goes on. -/
structure Result where
  decision : Decision
  points : List (Point Float)
  item : Item

/-- The item goes on as it came. -/
def Result.skip (decision : Decision) (item : Item) : Result := ⟨decision, [], item⟩

/-- Whether a project extracts from items of a kind. -/
def enabled (config : Config) : ItemKind → Bool
  | .session => config.extractsSessions
  | .transaction => config.extractsTransactions
  | .metrics | .buckets => false

/-- The decision that needs no look at the payload. -/
def precheck? (config : Config) (item : Item) : Option Decision :=
  if item.extracted then some .alreadyExtracted
  else if enabled config item.kind then none
  else some .disabled

/-- Extracts from a session whose payload is the given value. -/
def session (sdk : Option Bytes) (config : Config) (item : Item) (value : Json) : Result :=
  match precheck? config item with
  | some decision => .skip decision item
  | none => match Session.points? value sdk with
    | some points => ⟨.extracted, points, { item with extracted := true }⟩
    | none => .skip .invalid item

/-- Extracts from a transaction whose payload is the given value, in its normal form. -/
def transaction (config : Config) (item : Item) (event : Json) : Except EncodingError Result :=
  match precheck? config item with
  | some decision => .ok (.skip decision item)
  | none =>
    let normal := Transaction.normalize config event
    match Transaction.points? config normal with
    | some points => match normal.dump? with
      | some payload => .ok ⟨.extracted, points, { item with payload, extracted := true }⟩
      | none => .error .notUtf8
    | none => .ok (.skip .invalid item)

/-! ## Chains of relays -/

/-- A relay that an item passes: the configuration of the project there, and the client library that
it names in the tags of sessions. -/
structure Hop where
  config : Config
  sdk : Option Bytes

/-- An item cannot pass a relay. -/
inductive Hop.Fault where
  /-- The payload is no JSON text. -/
  | payload
  | encoding (e : EncodingError)
  deriving DecidableEq, Repr

/-- What a relay decides about an item from its payload, which has to be JSON whatever the item. -/
def Hop.visit (hop : Hop) (item : Item) : Except Hop.Fault Result :=
  match Json.parse? item.payload with
  | none => .error .payload
  | some value => match item.kind with
    | .transaction => (transaction hop.config item value).mapError .encoding
    | .session | .metrics | .buckets => .ok (session hop.sdk hop.config item value)

/-- What the relays of a chain decide, each about the item as the one before it passed it on. -/
def chain : List Hop → Item → Except Hop.Fault (List Result)
  | [], _ => .ok []
  | hop :: rest, item => do
    let result ← hop.visit item
    return result :: (← chain rest result.item)

end Extraction

end Telemetry

import Telemetry.Session
import Telemetry.Transaction.Breakdowns
import Telemetry.Transaction.Measurements
import Telemetry.Transaction.Name

/-!
# Metrics of transactions

A transaction with a readable end yields its duration, one point for each measurement and one for
each entry of its breakdowns but the totals.  All points carry the same time and tags.  A name that
would be no valid metric name yields no point.
-/

namespace Telemetry.Transaction

/-! ## Normal form -/

/-- An event whose measurements are capped and whose breakdowns are computed. -/
def normalize (config : Config) (event : Json) : Json :=
  Breakdowns.compute config.breakdowns (Measurements.cap config.measurements event).1

/-! ## Tags -/

/-- The name of the transaction, scrubbed if it was taken from an address. -/
def nameTag? (event : Json) : Option Bytes :=
  (event.text? "transaction").map fun name =>
    if (event.path? ["transaction_info", "source"]).bind Json.string? = some (ascii "url") then
      TransactionName.scrub name
    else name

/-- How the transaction ended. -/
def status (event : Json) : Bytes :=
  ((event.path? ["contexts", "trace", "status"]).bind Json.string?).getD (ascii "unknown")

def tags (event : Json) : Tags :=
  Ordered.insert (ascii "platform") ((event.text? "platform").getD (ascii "other")) <|
    Ordered.insert (ascii "transaction.status") (status event) <|
      Ordered.insertSome (ascii "transaction") (nameTag? event) <|
        Ordered.insertSome (ascii "release") (event.text? "release") <|
          Ordered.insertSome (ascii "environment") (event.text? "environment") []

/-! ## Points -/

/-- The unit that an entry gives if it is valid, else another. -/
def unitOr (default : Bytes) (entry : Json) : Bytes :=
  ((entry.text? "unit").filter Identifier.validUnit).getD default

/-- The full name of a distribution of transactions. -/
def fullName (name unit : Bytes) : Bytes := ascii "d:transactions/" ++ name ++ byte '@' :: unit

/-- A named number with its unit: what becomes one point if the name is valid. -/
structure Reading where
  name : Bytes
  value : Float

namespace Reading

/-- The reading has a valid name. -/
def named (r : Reading) : Bool := (Identifier.parse? r.name).isSome

end Reading

/-- The duration of an event in milliseconds, if it has a start that is not after its end. -/
def duration? (event : Json) (stop : Float) : Option Reading :=
  match Event.timeAt? event "start_timestamp" with
  | some start =>
    if start ≤ stop then some ⟨fullName (ascii "duration") (ascii "millisecond"),
      (stop - start) * 1000⟩
    else none
  | none => none

/-- The unit of a measurement that gives none itself. -/
def defaultUnit (rules : Option MeasurementRules) (name : Bytes) : Bytes :=
  match rules.bind fun r => Measurements.builtin? r name with
  | some b => b.unit
  | none => Identifier.defaultUnit

/-- The members of an object member; none if there is no such object. -/
def membersAt (event : Json) (name : String) : List (Bytes × Json) :=
  ((event.get? (ascii name)).bind Json.object?).getD []

/-- The readings of the measurements. -/
def measurements (rules : Option MeasurementRules) (event : Json) : List Reading :=
  (membersAt event "measurements").filterMap fun (name, entry) =>
    (Measurements.number? entry).map fun x =>
      ⟨fullName (ascii "measurements." ++ name) (unitOr (defaultUnit rules name) entry), x⟩

/-- The readings of one breakdown, without its total. -/
def breakdown (name : Bytes) (entries : Json) : List Reading :=
  (entries.object?.getD []).filterMap fun (key, entry) =>
    if key = Breakdowns.totalName then none
    else (Measurements.number? entry).map fun x =>
      ⟨fullName (ascii "breakdowns." ++ name ++ byte '.' :: key)
        (unitOr Identifier.defaultUnit entry), x⟩

/-- The readings of all breakdowns. -/
def breakdowns (event : Json) : List Reading :=
  (membersAt event "breakdowns").flatMap fun (name, entries) => breakdown name entries

/-- The points of an event; `none` if it is no transaction or has no readable end. -/
def points? (config : Config) (event : Json) : Option (List (Point Float)) := do
  guard event.object?.isSome
  guard ((event.text? "type").getD (ascii "transaction") = ascii "transaction")
  let stop ← Event.timeAt? event "timestamp"
  let readings := (duration? event stop).toList ++
    (measurements config.measurements event ++ breakdowns event).filter Reading.named
  return readings.map fun r =>
    ⟨r.name, .distribution [r.value], Binary64.toWord stop, tags event⟩

end Telemetry.Transaction

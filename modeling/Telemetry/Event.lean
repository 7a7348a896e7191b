import Telemetry.Calendar
import Telemetry.Json

/-!
# Reading events

Events are JSON values from clients.  A time in them is a number of seconds or a written time; the
fields that rules may name are three strings at the top level.
-/

namespace Telemetry

namespace Event

/-- The seconds of a time given as a non-negative number or as a written time. -/
def time? : Json → Option Float
  | .number n =>
    let x := n.toFloat
    if Binary64.isFinite x && !(x < 0) then some x else none
  | .string s => parseRfc3339? s
  | _ => none

/-- The seconds of a member. -/
def timeAt? (event : Json) (name : String) : Option Float :=
  (event.get? (ascii name)).bind time?

/-- The members that rules can refer to. -/
def knownFields : List (Bytes × String) :=
  [(ascii "event.release", "release"), (ascii "event.environment", "environment"),
    (ascii "event.transaction", "transaction")]

/-- The text of a field that rules can refer to. -/
def field? (event : Json) (field : Bytes) : Option Bytes :=
  (knownFields.lookup field).bind event.text?

end Event

end Telemetry

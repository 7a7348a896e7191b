import Telemetry.Interval
import Telemetry.Project

/-!
# The time of spans by operation

A breakdown sums up for each configured start of operations how long an event had such a span, and
how long it had any of them.  A span counts for the first configured start that its operation has,
if both its times can be read and do not run backwards.
-/

namespace Telemetry.Breakdowns

/-- What a span counts for: the first start of its operation, and its times. -/
def usable? (starts : List Bytes) (span : Json) : Option (Bytes × (Float × Float)) := do
  let op ← span.text? "op"
  let start ← starts.find? fun s => s.isPrefixOf op
  let begins ← Event.timeAt? span "start_timestamp"
  let ends ← Event.timeAt? span "timestamp"
  guard !(ends < begins)
  return (start, (begins, ends))

/-- Seconds as an entry in milliseconds. -/
def milliseconds (seconds : Float) : Json :=
  .object [(ascii "unit", .string (ascii "millisecond")),
    (ascii "value", .number (.float (seconds * 1000)))]

/-- The intervals of one start. -/
def intervalsOf (start : Bytes) (usable : List (Bytes × (Float × Float))) : List (Float × Float) :=
  (usable.filter fun u => u.1 = start).map Prod.snd

/-- The name of the total. -/
def totalName : Bytes := ascii "total.time"

/-- The name of the entry for a start. -/
def entryName (start : Bytes) : Bytes := ascii "ops." ++ start

/-- The entry for a start that some usable span counts for. -/
def timeOf? (usable : List (Bytes × (Float × Float))) (start : Bytes) : Option (Bytes × Json) :=
  match intervalsOf start usable with
  | [] => none
  | intervals => some (entryName start, milliseconds (Interval.covered intervals))

/-- The entries for usable spans: one for each start, and the total. -/
def entries (starts : List Bytes) (usable : List (Bytes × (Float × Float))) :
    List (Bytes × Json) :=
  Ordered.insert totalName (milliseconds (Interval.covered (usable.map Prod.snd)))
    (Ordered.ofList (starts.filterMap (timeOf? usable)))

/-- The entries of a breakdown over some spans; `none` if no span counts. -/
def measure? (b : Breakdown) (spans : List Json) : Option Json :=
  let usable := spans.filterMap (usable? b.starts)
  if usable.isEmpty then none else some (.object (entries b.starts usable))

/-- An event with one breakdown written to it. -/
def write (spans : List Json) (event : Json) (b : Breakdown) : Json :=
  match measure? b spans with
  | none => event
  | some entry =>
    let written := (event.get? (ascii "breakdowns")).getD (.object [])
    event.set (ascii "breakdowns") (written.set b.name entry)

/-- An event without breakdowns that are no object. -/
def dropMisshapen (event : Json) : Json :=
  match event.get? (ascii "breakdowns") with
  | some (.object _) | none => event
  | some _ => event.erase (ascii "breakdowns")

/-- An event with the breakdowns of its spans. -/
def compute (breakdowns : List Breakdown) (event : Json) : Json :=
  if breakdowns.isEmpty then event
  else match event.get? (ascii "spans") with
    | some (.array spans) => breakdowns.foldl (write spans) (dropMisshapen event)
    | _ => event

end Telemetry.Breakdowns

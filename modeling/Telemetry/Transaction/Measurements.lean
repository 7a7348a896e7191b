import Telemetry.Project

/-!
# The measurements of an event

Names are folded to lower case, entries without a number are dropped, and of the names a project
does not know only the first few stay, in byte order.
-/

namespace Telemetry.Measurements

/-- The number of an entry that has one. -/
def number? (entry : Json) : Option Float := (entry.get? (ascii "value")).bind Json.float?

/-- The entries with a number under their folded names; of names that fold alike the first stays. -/
def fold (members : List (Bytes × Json)) : List (Bytes × Json) :=
  members.foldl (fun kept (name, entry) =>
    if (number? entry).isSome then Ordered.insertNew (Bytes.lower name) entry kept else kept) []

/-- The builtin of a name. -/
def builtin? (rules : MeasurementRules) (name : Bytes) : Option Builtin :=
  rules.builtins.find? fun b => b.name = name

/-- The builtin entries and as many others as there is room for. -/
def limit (rules : MeasurementRules) : (room : Nat) → List (Bytes × Json) → List (Bytes × Json)
  | _, [] => []
  | room, (name, entry) :: rest =>
    if (builtin? rules name).isSome then (name, entry) :: limit rules room rest
    else match room with
      | 0 => limit rules 0 rest
      | room + 1 => (name, entry) :: limit rules room rest

/-- The entries that stay. -/
def keep (rules : Option MeasurementRules) (members : List (Bytes × Json)) : List (Bytes × Json) :=
  match rules with
  | some rules => limit rules rules.maxCustom.toNat (fold members)
  | none => fold members

/-- How many entries are dropped: those without a number, and those over the limit. -/
def dropped (rules : Option MeasurementRules) (members : List (Bytes × Json)) : Nat :=
  members.countP (fun (_, entry) => (number? entry).isNone) +
    ((fold members).length - (keep rules members).length)

/-- An event with the measurements it may carry, and how many were dropped.  Measurements that are
no object are removed. -/
def cap (rules : Option MeasurementRules) (event : Json) : Json × Nat :=
  match event.get? (ascii "measurements") with
  | none => (event, 0)
  | some (.object members) =>
    (event.set (ascii "measurements") (.object (keep rules members)), dropped rules members)
  | some _ => (event.erase (ascii "measurements"), 0)

end Telemetry.Measurements

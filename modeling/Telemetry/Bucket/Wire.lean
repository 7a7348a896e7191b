import Telemetry.Bucket
import Telemetry.Json.Reader
import Telemetry.Json.Writer

/-!
# Buckets on the wire

Buckets travel between relays as a JSON list of objects.  Writing may include the scope; reading
never looks at it, because the receiving relay knows whose payload it reads.  Reading checks the
name first, then the kind, the time, the width, the value and the tags, and reports the first fault.
-/

namespace Telemetry.Wire

open Bytes

/-! ## Writing -/

def gaugeJson (g : Gauge Float) : Json :=
  .object [(ascii "count", .number (.unsigned g.count)), (ascii "last", .number (.float g.last)),
    (ascii "max", .number (.float g.max)), (ascii "min", .number (.float g.min)),
    (ascii "sum", .number (.float g.sum))]

def valueJson : Value Float → Json
  | .counter x => .number (.float x)
  | .distribution xs => .array (xs.map fun x => .number (.float x))
  | .set s => .array (s.toList.map fun m => .number (.unsigned m.toUInt64))
  | .gauge g => gaugeJson g

def tagsJson (tags : Tags) : Json := .object (tags.map fun (name, value) => (name, .string value))

/-- A bucket as a JSON object, with its scope if asked for. -/
def bucketJson (withScope : Bool) (b : Bucket Float) : Json :=
  .object <|
    [(ascii "name", .string b.key.name)] ++
    (if withScope then [(ascii "org_id", .number (.unsigned b.key.scope.org)),
      (ascii "project_id", .number (.unsigned b.key.scope.project))] else []) ++
    (if b.key.tags.isEmpty then [] else [(ascii "tags", tagsJson b.key.tags)]) ++
    [(ascii "timestamp", .number (.unsigned b.key.timestamp)),
      (ascii "type", .string [b.kind.letter]), (ascii "value", valueJson b.value),
      (ascii "width", .number (.unsigned b.width))]

/-- The text of a batch; `none` if a name or a tag is no UTF-8. -/
def write? (withScope : Bool) (buckets : List (Bucket Float)) : Option Bytes :=
  (Json.array (buckets.map (bucketJson withScope))).dump?

/-! ## Reading -/

/-- Why an entry of a batch is refused. -/
inductive Fault where
  | notObject
  /-- A member is missing or of the wrong kind. -/
  | malformed
  | invalidName (name : Bytes)
  | kindMismatch (kind name : Bytes)
  | counterNotNumber
  | distributionNotList
  | distributionEntry
  | setNotList
  | setMember
  | setMemberRange
  | gaugeNotObject
  | invalidTagKey (key : Bytes)
  deriving DecidableEq

def Fault.message : Fault → Bytes
  | .notObject => ascii "bucket must be an object"
  | .malformed => ascii "malformed bucket"
  | .invalidName name => untilNul (ascii "invalid metric name '" ++ name ++ ascii "'")
  | .kindMismatch kind name =>
    untilNul (ascii "type '" ++ kind ++ ascii "' does not match name '" ++ name ++ ascii "'")
  | .counterNotNumber => ascii "counter value must be a number"
  | .distributionNotList => ascii "distribution value must be an array"
  | .distributionEntry => ascii "distribution entries must be numbers"
  | .setNotList => ascii "set value must be an array"
  | .setMember => ascii "set members must be unsigned integers"
  | .setMemberRange => ascii "set member out of range"
  | .gaugeNotObject => ascii "gauge value must be an object"
  | .invalidTagKey key => untilNul (ascii "invalid tag key '" ++ key ++ ascii "'")

/-- A misuse of a JSON value makes the entry malformed. -/
def access {α : Type} : Except Json.Misuse α → Except Fault α
  | .ok a => .ok a
  | .error _ => .error .malformed

/-- The value of a view, or a fault of its own. -/
def expect {α : Type} (view : Option α) (fault : Fault) : Except Fault α :=
  match view with
  | some a => .ok a
  | none => .error fault

def readMember (j : Json) : Except Fault UInt32 :=
  match j with
  | .number (.unsigned n) => if n.toNat < UInt32.size then .ok n.toUInt32 else .error .setMemberRange
  | _ => .error .setMember

def readFloat (j : Json) (name : String) : Except Fault Float :=
  access do (← j.getMember (ascii name)).expect Json.float?

def readWord (j : Json) (name : String) : Except Fault UInt64 :=
  access do return (← (← j.getMember (ascii name)).expect Json.number?).toWord

/-- The value of a kind. -/
def readValue (kind : Kind) (j : Json) : Except Fault (Value Float) :=
  match kind with
  | .counter => return .counter (← expect j.float? .counterNotNumber)
  | .distribution => do
    let items ← expect j.array? .distributionNotList
    return .distribution (← items.mapM fun x => expect x.float? .distributionEntry)
  | .set => do
    let items ← expect j.array? .setNotList
    return .set (Members.ofList (← items.mapM readMember))
  | .gauge => do
    let _ ← expect j.object? .gaugeNotObject
    let last ← readFloat j "last"
    let min ← readFloat j "min"
    let max ← readFloat j "max"
    let sum ← readFloat j "sum"
    let count ← readWord j "count"
    return .gauge ⟨last, min, max, sum, count⟩

def addTag (tags : Tags) (entry : Bytes × Json) : Except Fault Tags := do
  if Identifier.validTagKey entry.1 then
    let value ← access (entry.2.expect Json.string?)
    return Ordered.insert entry.1 value tags
  else .error (.invalidTagKey entry.1)

def readTags (j : Json) : Except Fault Tags :=
  match j.get? (ascii "tags") with
  | some tags => tags.entries.foldlM addTag []
  | none => .ok []

/-- Refuses a kind that is given and is not the one of the name. -/
def checkKind (m : Identifier) (name : Bytes) (j : Json) : Except Fault Unit :=
  match j.get? (ascii "type") with
  | some kind => do
    let kind ← access (kind.expect Json.string?)
    if Kind.ofText? kind = some m.kind then .ok () else .error (.kindMismatch kind name)
  | none => .ok ()

/-- The bucket of a JSON object, in the scope it was received for. -/
def readBucket (scope : Scope) (j : Json) : Except Fault (Bucket Float) := do
  let _ ← expect j.object? .notObject
  let name ← access do (← j.getMember (ascii "name")).expect Json.string?
  let m ← expect (Identifier.parse? name) (.invalidName name)
  checkKind m name j
  let timestamp ← readWord j "timestamp"
  let width ← access (j.getOr (fun v => v.number?.map Number.toWord) (ascii "width") 0)
  let value ← readValue m.kind (← access (j.getMember (ascii "value")))
  let tags ← readTags j
  return ⟨⟨scope, m.text, tags, timestamp⟩, width, value⟩

/-- What each entry of a batch yields; `none` if the payload is no JSON list. -/
def readAll? (payload : Bytes) (scope : Scope) : Option (List (Except Fault (Bucket Float))) :=
  (Json.parse? payload).bind fun j => j.array?.map fun items => items.map (readBucket scope)

/-- The wording for a payload that is no batch. -/
def notBatch : Bytes := ascii "bucket batch must be a JSON array"

/-- The buckets among the results. -/
def buckets (results : List (Except Fault (Bucket Float))) : List (Bucket Float) :=
  results.filterMap Except.toOption

/-- The faults among the results. -/
def faults (results : List (Except Fault (Bucket Float))) : List Fault :=
  results.filterMap fun r => match r with
    | .ok _ => none
    | .error f => some f

end Telemetry.Wire

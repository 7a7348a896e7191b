import Telemetry.Bucket
import Telemetry.Numeral

/-!
# Submission lines

A line is `[namespace/]name[@unit]:value[:value…]|kind` and any number of sections, each empty,
`#tag[:value],…` or `Tseconds`.  The first fault in reading order is the one reported: the name's
parts, then the kind, then the values, then the sections.  A payload is read line by line; blank
lines count but yield nothing, and a faulty line does not touch the others.
-/

namespace Telemetry.Line

open Bytes

/-- Why a line is refused, with the text at fault. -/
inductive Fault where
  | missingKind
  | missingValue
  | invalidNamespace (s : Bytes)
  | invalidName (s : Bytes)
  | invalidUnit (s : Bytes)
  | invalidKind (s : Bytes)
  | unknownKind (s : Bytes)
  | emptyNumber
  | invalidNumber (s : Bytes)
  | emptyMember
  | invalidTagKey (s : Bytes)
  | invalidTimestamp (s : Bytes)
  | unknownSection (s : Bytes)
  deriving DecidableEq

/-- A description and the text at fault in single quotes. -/
def quoted (what : String) (s : Bytes) : Bytes :=
  untilNul (ascii what ++ ascii " '" ++ s ++ ascii "'")

def Fault.message : Fault → Bytes
  | .missingKind => ascii "missing type section"
  | .missingValue => ascii "missing value"
  | .invalidNamespace s => quoted "invalid namespace" s
  | .invalidName s => quoted "invalid metric name" s
  | .invalidUnit s => quoted "invalid unit" s
  | .invalidKind s => quoted "invalid type" s
  | .unknownKind s => quoted "unknown type" s
  | .emptyNumber => ascii "empty value"
  | .invalidNumber s => quoted "invalid numeric value" s
  | .emptyMember => ascii "empty set value"
  | .invalidTagKey s => quoted "invalid tag key" s
  | .invalidTimestamp s => quoted "invalid timestamp" s
  | .unknownSection s => quoted "unknown section" s

/-- The blanks around a line. -/
def isBlank (b : UInt8) : Bool := b == byte ' ' || b == byte '\t' || b == byte '\r'

/-! ## Values -/

/-- A finite double that is neither too large nor too small for its text. -/
def number (raw : Bytes) : Except Fault Float :=
  if raw.isEmpty then .error .emptyNumber
  else match Numeral.scan? raw with
    | some n => if n.overflows || n.underflows then .error (.invalidNumber raw) else .ok n.round
    | none => .error (.invalidNumber raw)

def member (raw : Bytes) : Except Fault UInt32 :=
  if raw.isEmpty then .error .emptyMember else .ok (Members.ofText raw)

/-- The value of a kind from its parts. -/
def value (kind : Kind) (parts : List Bytes) : Except Fault (Value Float) :=
  match kind with
  | .counter => return .counter ((← parts.mapM number).foldl (· + ·) 0)
  | .distribution => return .distribution (← parts.mapM number)
  | .set => return .set (Members.ofList (← parts.mapM member))
  | .gauge => return .gauge (Gauge.ofList (← parts.mapM number))

/-! ## Sections -/

/-- Adds a `key:value` item; an empty item adds nothing and a missing value is empty. -/
def addTag (tags : Tags) (item : Bytes) : Except Fault Tags :=
  if item.isEmpty then .ok tags
  else
    let (key, value) := (cut? (byte ':') item).getD (item, [])
    if Identifier.validTagKey key then .ok (Ordered.insert key value tags)
    else .error (.invalidTagKey key)

def timestamp (raw : Bytes) : Except Fault UInt64 :=
  match decimal? raw with
  | some n => if n < UInt64.size then .ok (UInt64.ofNat n) else .error (.invalidTimestamp raw)
  | none => .error (.invalidTimestamp raw)

/-- What the sections change: the tags and the time. -/
structure Details where
  tags : Tags
  timestamp : UInt64

def addSection (d : Details) : Bytes → Except Fault Details
  | [] => .ok d
  | mark :: rest =>
    if mark = byte '#' then
      return { d with tags := ← (split (byte ',') rest).foldlM addTag d.tags }
    else if mark = byte 'T' then return { d with timestamp := ← timestamp rest }
    else .error (.unknownSection (mark :: rest))

/-! ## Lines -/

/-- The namespace, name and unit in front of the values. -/
def nameParts (s : Bytes) : Bytes × Bytes × Bytes :=
  let (path, unit) := (cut? (byte '@') s).getD (s, Identifier.defaultUnit)
  let (space, name) := (cut? (byte '/') path).getD (Identifier.defaultSpace, path)
  (space, name, unit)

/-- The kind that a section names. -/
def kind (s : Bytes) : Except Fault Kind :=
  if s.length ≠ 1 then .error (.invalidKind s)
  else match Kind.ofText? s with
    | some k => .ok k
    | none => .error (.unknownKind s)

/-- Fails with a fault unless a condition holds. -/
def require (condition : Bool) (fault : Fault) : Except Fault Unit :=
  if condition then .ok () else .error fault

/-- The point that a line submits; its time is the given one unless a section says otherwise. -/
def parse (line : Bytes) (now : UInt64) : Except Fault (Point Float) :=
  match split (byte '|') (trim isBlank line) with
  | head :: kindText :: sections => do
    match cut? (byte ':') head with
    | none => .error .missingValue
    | some (fullName, values) =>
      let (space, name, unit) := nameParts fullName
      require (Identifier.validSpace space) (.invalidNamespace space)
      require (Identifier.validName name) (.invalidName name)
      require (Identifier.validUnit unit) (.invalidUnit unit)
      let k ← kind kindText
      let v ← value k (split (byte ':') values)
      let d ← sections.foldlM addSection ⟨[], now⟩
      return ⟨(Identifier.mk k space name unit).text, v, d.timestamp, d.tags⟩
  | _ => .error .missingKind

/-! ## Payloads -/

/-- What each line that is not blank yields, with its number counted from 1. -/
def readAll (payload : Bytes) (now : UInt64) : List (Nat × Except Fault (Point Float)) :=
  (((split (byte '\n') payload).zipIdx 1).filter fun (line, _) => !(trim isBlank line).isEmpty).map
    fun (line, n) => (n, parse line now)

/-- The points of a payload, in order. -/
def points (payload : Bytes) (now : UInt64) : List (Point Float) :=
  (readAll payload now).filterMap fun (_, r) => r.toOption

/-- The faults of a payload with their line numbers, in order. -/
def faults (payload : Bytes) (now : UInt64) : List (Nat × Fault) :=
  (readAll payload now).filterMap fun (n, r) => match r with
    | .ok _ => none
    | .error f => some (n, f)

end Telemetry.Line

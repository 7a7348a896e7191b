import Telemetry.Event
import Telemetry.Glob

/-!
# Conditions on events

A condition is a formula over the fields of an event: all, some or none of inner conditions, or a
field that equals one of several texts or is described by one of several patterns.  A field that
the event lacks fulfils nothing.
-/

namespace Telemetry

inductive Condition where
  | all (inner : List Condition)
  | any (inner : List Condition)
  | not (inner : Condition)
  /-- The field equals one of the values, perhaps up to case. -/
  | equals (field : Bytes) (values : List Bytes) (ignoreCase : Bool)
  /-- One of the patterns describes the field. -/
  | glob (field : Bytes) (patterns : List Bytes)

namespace Condition

/-! ## Meaning -/

/-- Equality of texts, perhaps up to case. -/
def sameText (ignoreCase : Bool) (a b : Bytes) : Bool :=
  if ignoreCase then Bytes.lower a == Bytes.lower b else a == b

mutual

/-- Whether an event fulfils the condition. -/
def holds (event : Json) : Condition → Bool
  | .all inner => allHold event inner
  | .any inner => anyHolds event inner
  | .not inner => !holds event inner
  | .equals field values ignoreCase => match Event.field? event field with
    | some text => values.any fun v => sameText ignoreCase v text
    | none => false
  | .glob field patterns => match Event.field? event field with
    | some text => patterns.any fun p => Glob.matchesText p text
    | none => false

def allHold (event : Json) : List Condition → Bool
  | [] => true
  | c :: rest => holds event c && allHold event rest

def anyHolds (event : Json) : List Condition → Bool
  | [] => false
  | c :: rest => holds event c || anyHolds event rest

end

/-! ## Reading -/

/-- Why a condition is refused. -/
inductive Fault where
  | missingOperator
  | missingInnerList (op : Bytes)
  | missingInner
  | missingField (op : Bytes)
  | missingValue (op : Bytes)
  | valueNotStrings
  | unknownOperator (op : Bytes)
  deriving DecidableEq

def Fault.message : Fault → Bytes
  | .missingOperator => ascii "Rule condition requires an 'op'"
  | .missingInnerList op => ascii "'" ++ op ++ ascii "' condition requires an 'inner' list"
  | .missingInner => ascii "'not' condition requires an 'inner' condition"
  | .missingField op => ascii "'" ++ op ++ ascii "' condition requires a 'name'"
  | .missingValue op => ascii "'" ++ op ++ ascii "' condition requires a 'value'"
  | .valueNotStrings => ascii "condition value must be a list of strings"
  | .unknownOperator op => Bytes.untilNul (ascii "Unknown condition operator '" ++ op ++ ascii "'")

/-- One string or a list of strings. -/
def readValues (j : Json) : Except Fault (List Bytes) :=
  match j with
  | .string s => .ok [s]
  | j => match j.strings? with
    | some values => .ok values
    | none => .error .valueNotStrings

/-- The field and the values of a comparison. -/
def readComparison (op : Bytes) (j : Json) : Except Fault (Bytes × List Bytes) :=
  match j.text? "name", j.get? (ascii "value") with
  | none, _ => .error (.missingField op)
  | some _, none => .error (.missingValue op)
  | some field, some value => (readValues value).map fun values => (field, values)

/-- Whether case is to be ignored. -/
def readIgnoreCase (j : Json) : Bool :=
  ((j.path? ["options", "ignoreCase"]).bind Json.bool?).getD false

/-- The condition of a JSON value. -/
def read (j : Json) : Except Fault Condition :=
  match j.text? "op" with
  | none => .error .missingOperator
  | some op =>
    if op = ascii "and" ∨ op = ascii "or" then
      match h : j.get? (ascii "inner") with
      | some (.array items) => do
        let inner ← items.attach.mapM fun ⟨c, hc⟩ =>
          have : sizeOf c < sizeOf j := by
            have := Json.sizeOf_lt_of_get? h
            have := List.sizeOf_lt_of_mem hc
            simp only [Json.array.sizeOf_spec] at *
            omega
          read c
        return if op = ascii "and" then .all inner else .any inner
      | _ => .error (.missingInnerList op)
    else if op = ascii "not" then
      match h : j.get? (ascii "inner") with
      | some (.object members) =>
        have : 1 + sizeOf members < sizeOf j := by
          simpa only [Json.object.sizeOf_spec] using Json.sizeOf_lt_of_get? h
        (read (.object members)).map .not
      | _ => .error .missingInner
    else if op = ascii "eq" then
      (readComparison op j).map fun (field, values) => .equals field values (readIgnoreCase j)
    else if op = ascii "glob" then
      (readComparison op j).map fun (field, values) => .glob field values
    else .error (.unknownOperator op)
termination_by sizeOf j

end Condition

end Telemetry

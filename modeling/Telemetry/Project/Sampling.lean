import Telemetry.Fnv
import Telemetry.Project.Condition

/-!
# Inbound filters and sampling

A filter drops events whose release one of its patterns describes.  Sampling decides by the first
rule whose condition an event fulfils: the hash of the event's id, or of its trace's id, puts it at
a position in [0, 1), and it is kept below the rate of the rule.  So relays with equal rules decide
alike, and a trace is kept or dropped as a whole.
-/

namespace Telemetry

/-! ## Filters -/

/-- Patterns of unwanted releases. -/
structure Filter where
  releases : List Bytes := []
  deriving DecidableEq

namespace Filter

/-- Why an event is filtered out. -/
inductive Reason where
  | release
  deriving DecidableEq, Repr

def Reason.label : Reason → String
  | .release => "RELEASE"

/-- The filter of a JSON value; what is no list of patterns filters nothing. -/
def read (j : Json) : Filter :=
  ⟨((j.path? ["releases", "releases"]).bind Json.strings?).getD []⟩

/-- The reason to drop an event, if there is one. -/
def reason? (f : Filter) (event : Json) : Option Reason :=
  match event.text? "release" with
  | some release =>
    if f.releases.any fun p => Glob.matchesText p release then some .release else none
  | none => none

end Filter

/-! ## Sampling -/

/-- What a rule decides about: events one by one, or traces. -/
inductive Sampling.Subject where
  | transaction
  | trace
  deriving DecidableEq, Repr

def Sampling.Subject.label : Sampling.Subject → String
  | .transaction => "transaction"
  | .trace => "trace"

structure Sampling.Rule where
  id : UInt64
  subject : Sampling.Subject
  rate : Float
  condition : Condition

/-- Rules in the order in which they are tried. -/
structure Sampling where
  rules : List Sampling.Rule := []

namespace Sampling

/-! ### Reading -/

/-- Why a rule is refused. -/
inductive Fault where
  | notObject
  | missingRate
  | rateOutOfRange
  | missingSubject
  | unknownSubject (s : Bytes)
  | missingCondition
  | condition (fault : Condition.Fault)
  deriving DecidableEq

def Fault.message : Fault → Bytes
  | .notObject => ascii "Sampling rule must be an object"
  | .missingRate => ascii "Sampling rule requires a numeric 'sampleRate'"
  | .rateOutOfRange => ascii "Sampling rate must be within [0, 1]"
  | .missingSubject => ascii "Sampling rule requires a 'type'"
  | .unknownSubject s =>
    Bytes.untilNul (ascii "Unsupported sampling rule type '" ++ s ++ ascii "'")
  | .missingCondition => ascii "Sampling rule requires a 'condition'"
  | .condition fault => fault.message

/-- The id of a rule: an integer in the range of non-negative signed words, else 0. -/
def readId (j : Json) : UInt64 :=
  match j.get? (ascii "id") with
  | some (.number (.unsigned n)) => if n < 0x8000000000000000 then n else 0
  | some (.number (.signed i)) => if 0 ≤ i then i.toUInt64 else 0
  | _ => 0

def readRate (j : Json) : Except Fault Float :=
  match (j.get? (ascii "sampleRate")).bind Json.float? with
  | some rate => if rate < 0 || 1 < rate then .error .rateOutOfRange else .ok rate
  | none => .error .missingRate

def readSubject (j : Json) : Except Fault Subject :=
  match j.text? "type" with
  | some s =>
    if s = ascii "transaction" then .ok .transaction
    else if s = ascii "trace" then .ok .trace
    else .error (.unknownSubject s)
  | none => .error .missingSubject

def readCondition (j : Json) : Except Fault Condition :=
  match j.get? (ascii "condition") with
  | some c => (Condition.read c).mapError .condition
  | none => .error .missingCondition

/-- The rule of a JSON value. -/
def Rule.read (j : Json) : Except Fault Rule := do
  if j.object?.isNone then .error .notObject
  let rate ← readRate j
  let subject ← readSubject j
  let condition ← readCondition j
  return ⟨readId j, subject, rate, condition⟩

/-- The rules of a JSON value; a faulty one is left out. -/
def read (j : Json) : Sampling :=
  ⟨(((j.get? (ascii "rules")).bind Json.array?).getD []).filterMap fun r => (Rule.read r).toOption⟩

/-! ### Deciding -/

/-- The id whose hash decides. -/
def idOf? (event : Json) : Subject → Option Bytes
  | .transaction => event.text? "event_id"
  | .trace => (event.path? ["contexts", "trace", "trace_id"]).bind Json.string?

/-- The position in [0, 1) that an id stands for; 0 without an id. -/
def position : Option Bytes → Float
  | some id => (Fnv.hash32 id).toFloat / 4294967296
  | none => 0

structure Decision where
  keep : Bool
  /-- The id of the rule that decided. -/
  rule : Option UInt64
  deriving DecidableEq, Repr

/-- What a rule decides about an event. -/
def Rule.decide (r : Rule) (event : Json) : Decision :=
  ⟨position (idOf? event r.subject) < r.rate, some r.id⟩

/-- The decision of the first rule that applies; an event without one is kept. -/
def decide (s : Sampling) (event : Json) : Decision :=
  match s.rules.find? fun r => r.condition.holds event with
  | some r => r.decide event
  | none => ⟨true, none⟩

end Sampling

end Telemetry

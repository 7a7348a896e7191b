import Telemetry.Bucket
import Telemetry.Json.Reader
import Telemetry.Project.Sampling

/-!
# Projects

What a relay knows of a project: its scope, whether it is disabled, and the sections of its
configuration that concern extraction.  A section that is missing or of the wrong shape turns its
feature off and touches no other section.
-/

namespace Telemetry

/-! ## Configuration -/

/-- A measurement every project knows, with its unit. -/
structure Builtin where
  name : Bytes
  unit : Bytes
  deriving DecidableEq

/-- Which measurements an event may carry. -/
structure MeasurementRules where
  builtins : List Builtin := []
  /-- How many others may stay. -/
  maxCustom : UInt64 := 0
  deriving DecidableEq

/-- A breakdown of the time of spans by the starts of their operations. -/
structure Breakdown where
  name : Bytes
  starts : List Bytes
  deriving DecidableEq

/-- The configuration of a project. -/
structure Config where
  /-- The version of session extraction; 0 turns it off. -/
  sessionVersion : UInt64 := 0
  /-- The version of transaction extraction, if the section can be read. -/
  transactionVersion : Option UInt64 := none
  /-- Absent rules limit nothing. -/
  measurements : Option MeasurementRules := none
  breakdowns : List Breakdown := []
  filter : Filter := {}
  sampling : Sampling := {}

namespace Config

/-- The only version of extraction that exists. -/
def extractionVersion : UInt64 := 1

def extractsSessions (c : Config) : Bool := c.sessionVersion = extractionVersion

def extractsTransactions (c : Config) : Bool := c.transactionVersion = some extractionVersion

/-! ### Reading -/

/-- An integer that is not negative. -/
def natural? : Json → Option UInt64
  | .number (.unsigned n) => some n
  | .number (.signed i) => if 0 ≤ i then some i.toUInt64 else none
  | _ => none

def readSessionVersion (j : Json) : UInt64 :=
  ((j.path? ["sessionMetrics", "version"]).bind natural?).getD 0

def readTransactionVersion (j : Json) : Option UInt64 :=
  (j.path? ["transactionMetrics", "version"]).bind natural?

/-- A builtin measurement; an entry without a name is none. -/
def readBuiltin (j : Json) : Except Json.Misuse (Option Builtin) :=
  match j.text? "name" with
  | some name => do
    let unit ← j.getOr Json.string? (ascii "unit") Identifier.defaultUnit
    return some ⟨Bytes.lower name, unit⟩
  | none => .ok none

def readMeasurements (j : Json) : Except Json.Misuse (Option MeasurementRules) :=
  match j.get? (ascii "measurements") with
  | some (.object members) => do
    let rules := Json.object members
    let entries := ((rules.get? (ascii "builtinMeasurements")).bind Json.array?).getD []
    let builtins ← entries.mapM readBuiltin
    let maxCustom := ((rules.get? (ascii "maxCustomMeasurements")).bind natural?).getD 0
    return some ⟨builtins.filterMap id, maxCustom⟩
  | _ => .ok none

/-- The only kind of breakdown that exists. -/
def breakdownKind : Bytes := ascii "spanOperations"

/-- A breakdown; an entry of another kind is none. -/
def readBreakdown (name : Bytes) (j : Json) : Except Json.Misuse (Option Breakdown) :=
  match j with
  | .object _ => do
    let kind ← j.getOr Json.string? (ascii "type") []
    if kind = breakdownKind then
      let starts := ((j.get? (ascii "matches")).bind Json.array?).getD []
      return some ⟨name, starts.filterMap Json.string?⟩
    else return none
  | _ => .ok none

def readBreakdowns (j : Json) : Except Json.Misuse (List Breakdown) :=
  match j.get? (ascii "breakdownsV2") with
  | some (.object members) => do
    let entries ← members.mapM fun (name, entry) => readBreakdown name entry
    return entries.filterMap id
  | _ => .ok []

def readFilter (j : Json) : Filter := ((j.get? (ascii "filterSettings")).map Filter.read).getD {}

def readSampling (j : Json) : Sampling :=
  ((j.get? (ascii "dynamicSampling")).map Sampling.read).getD {}

/-- The configuration of a JSON value. -/
def read (j : Json) : Except Json.Misuse Config := do
  let measurements ← readMeasurements j
  let breakdowns ← readBreakdowns j
  return ⟨readSessionVersion j, readTransactionVersion j, measurements, breakdowns, readFilter j,
    readSampling j⟩

end Config

/-! ## Projects -/

/-- A project; the default one is enabled and extracts nothing. -/
structure Project where
  scope : Scope := ⟨0, 0⟩
  disabled : Bool := false
  config : Config := {}

namespace Project

/-- Why a project is refused. -/
inductive Fault where
  | notObject
  | missingScope
  /-- A member of the configuration is of the wrong kind. -/
  | misuse (m : Json.Misuse)
  deriving DecidableEq, Repr

/-- The wording of a fault; a misuse of JSON has none of its own. -/
def Fault.message? : Fault → Option Bytes
  | .notObject => some (ascii "Project state must be an object")
  | .missingScope =>
    some (ascii "Project state requires numeric 'organizationId' and 'projectId'")
  | .misuse _ => none

/-- The project of a JSON value. -/
def read (j : Json) : Except Fault Project := do
  if j.object?.isNone then .error .notObject
  match (j.get? (ascii "organizationId")).bind Config.natural?,
      (j.get? (ascii "projectId")).bind Config.natural? with
  | some org, some project =>
    let disabled := ((j.get? (ascii "disabled")).bind Json.bool?).getD false
    let config ← match j.get? (ascii "config") with
      | some c => (Config.read c).mapError .misuse
      | none => .ok {}
    return ⟨⟨org, project⟩, disabled, config⟩
  | _, _ => .error .missingScope

/-! ### Project files -/

/-- Why a project file is refused. -/
inductive FileFault where
  | unreadable (path : Bytes)
  | notList (path : Bytes)
  | project (fault : Fault)
  deriving DecidableEq

def FileFault.message? : FileFault → Option Bytes
  | .unreadable path => some (ascii "Could not open project states file: " ++ path)
  | .notList path => some (ascii "Project states file must hold a JSON array: " ++ path)
  | .project fault => fault.message?

/-- The projects of a file by id, ascending; of two with one id the later counts. -/
def ofFile (path : Bytes) (content : Option Bytes) :
    Except FileFault (Entries UInt64 Project) := do
  match content with
  | none => .error (.unreadable path)
  | some text => match (Json.parse? text).bind Json.array? with
    | none => .error (.notList path)
    | some items =>
      let projects ← items.mapM fun j => (read j).mapError .project
      return Ordered.ofList (projects.map fun p => (p.scope.project, p))

end Project

end Telemetry

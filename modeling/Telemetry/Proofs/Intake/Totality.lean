import Telemetry.Proofs.Bucket.Raising
import Telemetry.Proofs.Extraction.Raising
import Telemetry.Proofs.Intake.Accounts
import Telemetry.Proofs.Project.Sections

/-!
# Intake never fails

Intake with accesses that raise.  What a faulty line, a faulty entry or a payload that is no batch raises is
caught and recorded where intake records the fault (`takeMetrics_eq`, `takeBuckets_eq`), and no other access
raises, so one error is left: the normal form of a transaction may have no text (`process_eq`).

It has one wherever the project was read from JSON text.  Every string of an event that was read is UTF-8,
and what normalising writes to it is too: names in lower case, and the names and starts of breakdowns, which
come from the same kind of text.  So an envelope is processed whatever its payloads are (`process_returns`).
-/

namespace Telemetry

open Bytes

/-! ## Projects as they are loaded -/

namespace Project

/-- The project is that of a JSON text, or of an item of the list that the text is. -/
def Loaded (project : Project) : Prop :=
  ∃ text root j, Json.parse? text = some root ∧ (j = root ∨ ∃ items, root = .array items ∧ j ∈ items) ∧
    read j = .ok project

/-- What is read from UTF-8 writes UTF-8. -/
theorem read_encodable {j : Json} {project : Project} (hj : j.encodable = true)
    (h : read j = .ok project) : project.config.Encodable := by
  obtain ⟨hreadable, hproject⟩ := read_eq_ok_iff.mp h
  obtain ⟨scope, -, rfl⟩ := Option.map_eq_some_iff.mp hproject
  cases hc : j.get? (ascii "config") with
  | none => exact List.forall_mem_nil _
  | some c =>
    have hread : Config.read c = .ok _ := Config.read_eq_ok_iff.mpr ⟨hreadable c hc, rfl⟩
    exact Config.read_encodable (Json.encodable_of_get? hj hc) hread

theorem Loaded.encodable {project : Project} (h : project.Loaded) : project.config.Encodable := by
  obtain ⟨text, root, j, hroot, hj, hread⟩ := h
  have hencodable := Json.parse?_encodable hroot
  obtain rfl | ⟨items, rfl, hitem⟩ := hj
  · exact read_encodable hencodable hread
  · exact read_encodable (Json.encodable_array.mp hencodable j hitem) hread

end Project

/-- An envelope is processed for a project whose configuration writes UTF-8. -/
theorem Intake.process_succeeds {project : Project} (hconfig : project.config.Encodable) (phase : Phase)
    (clock : Intake.Clock) (envelope : Envelope) (s : Intake) :
    ∃ p, s.process phase clock envelope project = .ok p := by
  unfold process
  dsimp only
  split
  · exact ⟨_, rfl⟩
  · exact foldlM_succeeds hconfig clock envelope envelope.items.zipIdx _

namespace Raising

open Intake (Progress)

/-! ## Lines -/

/-- The points of the lines that can be read, and the wordings of the other lines with their numbers. -/
def readLines (payload : Bytes) (receivedAt : UInt64) :
    Except Raised (List (Point Float) × List (Nat × Bytes)) := do
  let lines := ((split (byte '\n') payload).zipIdx 1).filter fun (line, _) =>
    !(trim Line.isBlank line).isEmpty
  let (points, errors) ← lines.foldlM
    (collect fun (line, _) => (Line.parse line receivedAt).mapError .line) ([], [])
  return (points, errors.map fun ((_, n), message) => (n, message))

theorem readLines_eq (payload : Bytes) (receivedAt : UInt64) : readLines payload receivedAt =
    .ok (Line.points payload receivedAt,
      (Line.faults payload receivedAt).map fun (n, fault) => (n, fault.message)) := by
  unfold readLines
  dsimp only
  rw [foldlM_collect, ok_bind]
  refine congrArg Except.ok (Prod.ext ?_ ?_)
  · simp only [toOption_mapError]
    rw [List.nil_append, Line.points, Line.readAll, List.filterMap_map]
    rfl
  · dsimp only
    rw [List.nil_append, Line.faults, Line.readAll, List.filterMap_map, List.map_filterMap,
      List.map_filterMap]
    congr 1
    funext e
    dsimp only [Function.comp_apply, errorAt?]
    cases Line.parse e.1 receivedAt <;> rfl

/-! ## Items -/

section Items

variable (clock : Nat → UInt64)

/-- Submission lines: the faulty ones are recorded, then the others merged. -/
def takeMetrics (receivedAt : UInt64) (scope : Scope) (payload : Bytes) (p : Progress) :
    Except Raised Progress := do
  let (points, errors) ← readLines payload receivedAt
  let p := errors.foldl (fun p (n, message) =>
    Intake.record ⟨.invalidMetric, .metric, scope, 1,
      ascii "line " ++ Bytes.decimal n ++ ascii ": " ++ message⟩ p) p
  return Intake.mergePoints clock .metric scope points p

/-- A batch of buckets: what it raises as a whole is caught here. -/
def takeBuckets (scope : Scope) (payload : Bytes) (p : Progress) : Except Raised Progress :=
  match readBatch payload scope with
  | .error e => return Intake.dropItem ⟨.invalidPayload, .metric, scope, 1, e.message⟩ p
  | .ok (buckets, errors) => do
    let p := errors.foldl (fun p message =>
      Intake.record ⟨.invalidMetric, .metric, scope, 1, message⟩ p) p
    return Intake.mergeAll clock .metric (buckets.map fun b => (b.key, b.value)) p

def takeSession (sdk : Option Bytes) (project : Project) (item : Item) (p : Progress) :
    Except Raised Progress := do
  match Intake.object? item.payload with
  | none =>
    return Intake.dropItem ⟨.invalidPayload, .session, project.scope, 1,
      ascii "session is not a JSON object"⟩ p
  | some value =>
    let r ← session sdk project.config item value
    return Intake.forward r (Intake.mergeExtracted clock .session project.scope r.points p)

/-- Why a transaction is not passed on, with a detail. -/
def unwanted (config : Config) (event : Json) : Except Raised (Option (Drop.Reason × Bytes)) := do
  match ← reason config.filter event with
  | some reason => return some (.filtered, ascii reason.label)
  | none =>
    let decision ← sample event config.sampling.rules
    if decision.keep then return none
    return some (.sampled, ascii "rule " ++ Bytes.decimal (decision.rule.getD 0).toNat)

def takeTransaction (project : Project) (item : Item) (p : Progress) : Except Raised Progress := do
  match Intake.object? item.payload with
  | none =>
    return Intake.dropItem ⟨.invalidPayload, .transaction, project.scope, 1,
      ascii "event is not a JSON object"⟩ p
  | some event => match ← unwanted project.config event with
    | some (reason, detail) =>
      return Intake.dropItem ⟨reason, .transaction, project.scope, 1, detail⟩ p
    | none =>
      let r ← transaction project.config item event
      return Intake.forward r (Intake.mergeExtracted clock .transaction project.scope r.points p)

/-- One item of an envelope. -/
def takeItem (envelope : Envelope) (project : Project) (p : Progress) (i : Item) : Except Raised Progress :=
  match i.kind with
  | .metrics => takeMetrics clock envelope.receivedAt project.scope i.payload p
  | .buckets => takeBuckets clock project.scope i.payload p
  | .session => takeSession clock envelope.sdk project i p
  | .transaction => takeTransaction clock project i p

theorem takeMetrics_eq (receivedAt : UInt64) (scope : Scope) (payload : Bytes) (p : Progress) :
    takeMetrics clock receivedAt scope payload p =
      .ok (Intake.metrics clock receivedAt scope payload p) := by
  rw [takeMetrics, readLines_eq, ok_bind]
  dsimp only
  rw [List.foldl_map]
  rfl

theorem takeBuckets_eq (scope : Scope) (payload : Bytes) (p : Progress) :
    takeBuckets clock scope payload p = .ok (Intake.buckets clock scope payload p) := by
  unfold takeBuckets Intake.buckets
  rw [readBatch_eq]
  cases Wire.readAll? payload scope with
  | none => rfl
  | some results =>
    dsimp only
    rw [List.foldl_map]
    rfl

theorem takeSession_eq (sdk : Option Bytes) (project : Project) (item : Item) (p : Progress) :
    takeSession clock sdk project item p = .ok (Intake.session clock sdk project item p) := by
  unfold takeSession Intake.session
  cases Intake.object? item.payload with
  | none => rfl
  | some value =>
    dsimp only
    rw [session_eq, ok_bind, pure_eq_ok]

theorem unwanted_eq (config : Config) (event : Json) :
    unwanted config event = .ok (Intake.unwanted? config event) := by
  unfold unwanted Intake.unwanted?
  rw [reason_eq, ok_bind]
  cases config.filter.reason? event with
  | some reason => rfl
  | none =>
    dsimp only
    rw [sample_eq, ok_bind]
    split <;> rfl

theorem takeTransaction_eq (project : Project) (item : Item) (p : Progress) :
    takeTransaction clock project item p =
      (Intake.transaction clock project item p).mapError .encoding := by
  unfold takeTransaction Intake.transaction
  cases Intake.object? item.payload with
  | none => rfl
  | some event =>
    dsimp only
    rw [unwanted_eq, ok_bind]
    cases Intake.unwanted? project.config event with
    | some cause => rfl
    | none =>
      dsimp only
      rw [transaction_eq]
      cases Extraction.transaction project.config item event <;> rfl

theorem takeItem_eq (envelope : Envelope) (project : Project) (p : Progress) (i : Item) :
    takeItem clock envelope project p i =
      (Intake.item clock envelope project p i).mapError .encoding := by
  unfold takeItem Intake.item
  cases i.kind with
  | metrics => exact takeMetrics_eq clock envelope.receivedAt project.scope i.payload p
  | buckets => exact takeBuckets_eq clock project.scope i.payload p
  | session => exact takeSession_eq clock envelope.sdk project i p
  | transaction => exact takeTransaction_eq clock project i p

end Items

/-! ## Envelopes -/

/-- Takes in an envelope for a project. -/
def process (phase : Phase) (clock : Intake.Clock) (envelope : Envelope) (project : Project)
    (s : Intake) : Except Raised Progress :=
  let s := { s with envelopes := s.envelopes + 1 }
  if phase ≠ .running ∨ project.disabled then return ({ s with rejected := s.rejected + 1 }, {})
  else
    envelope.items.zipIdx.foldlM (fun p e => takeItem (clock e.2) envelope project p e.1)
      (s, { accepted := true })

/-- **One error can escape intake: a transaction whose normal form has no text.** -/
theorem process_eq (phase : Phase) (clock : Intake.Clock) (envelope : Envelope) (project : Project)
    (s : Intake) : process phase clock envelope project s =
      (s.process phase clock envelope project).mapError .encoding := by
  unfold process Intake.process
  dsimp only
  split
  · rfl
  · rw [← foldlM_mapError]
    congr 1
    funext p e
    exact takeItem_eq (clock e.2) envelope project p e.1

/-- **Nothing escapes intake.**  For a project read from JSON text an envelope is processed as where nothing
can raise, and the normal form of an event has a text: lower case and breakdowns keep its strings UTF-8. -/
theorem process_returns {project : Project} (h : project.Loaded) :
    (∀ phase clock envelope s, ∃ p, process phase clock envelope project s = .ok p ∧
      s.process phase clock envelope project = .ok p) ∧
    (∀ payload event, Json.parse? payload = some event → ∃ normal text,
      normalize project.config event = .ok normal ∧ Transaction.normalize project.config event = normal ∧
        normal.encodable = true ∧ dump normal = .ok text ∧ normal.dump? = some text) ∧
    (∀ name, Utf8.valid name = true → Utf8.valid (lower name) = true) ∧
    ∀ b ∈ project.config.breakdowns, Utf8.valid b.name = true ∧ ∀ s ∈ b.starts, Utf8.valid s = true := by
  refine ⟨?_, ?_, fun _ => Utf8.valid_lower, fun b hb => ⟨(h.encodable b hb).name, (h.encodable b hb).starts⟩⟩
  · intro phase clock envelope s
    obtain ⟨p, hp⟩ := Intake.process_succeeds h.encodable phase clock envelope s
    refine ⟨p, ?_, hp⟩
    rw [process_eq, hp]
    rfl
  · intro payload event hevent
    have hnormal := Transaction.normalize_encodable h.encodable (Json.parse?_encodable hevent)
    exact ⟨_, _, normalize_eq event project.config, rfl, hnormal, dump_of_encodable hnormal,
      Json.dump?_of_encodable hnormal⟩

/-- A project that breaks the time of spans down. -/
def timed : Json := .object [
  (ascii "config", .object [
    (ascii "breakdownsV2", .object [(ascii "ops", .object [
      (ascii "matches", .array [.string (ascii "http")]),
      (ascii "type", .string (ascii "spanOperations"))])]),
    (ascii "transactionMetrics", .object [(ascii "version", .number (.unsigned 1))])]),
  (ascii "organizationId", .number (.unsigned 1)), (ascii "projectId", .number (.unsigned 42))]

/-- Payloads that are no UTF-8 for a project that breaks the time of spans down. -/
theorem process_returns_foreign_bytes :
    let project : Project := ⟨⟨1, 42⟩, false,
      { transactionVersion := some 1, breakdowns := [⟨ascii "ops", [ascii "http"]⟩] }⟩
    let envelope : Envelope := ⟨42, none, 1700000000, [⟨.metrics, [255], false⟩, ⟨.buckets, [255], false⟩,
      ⟨.session, [255], false⟩, ⟨.transaction, ascii "\x7b\x7d", false⟩]⟩
    let event : Json := .object [
      (ascii "measurements", .object [(ascii "LCP", .object [(ascii "value", .number (.unsigned 1))])]),
      (ascii "spans", .array [.object [(ascii "op", .string (ascii "http.client")),
        (ascii "start_timestamp", .number (.unsigned 1)), (ascii "timestamp", .number (.unsigned 2))]])]
    let clock : Intake.Clock := .still 1700000000
    let s : Intake := { aggregator := .empty {} 2 }
    project.Loaded ∧ Json.parse? event.render = some event ∧
      (∃ p, process .running clock envelope project s = .ok p ∧
        (p.2.dropped, p.2.forwarded.length, p.1.log.total) = (2, 1, 3)) ∧
      ∃ normal text, normalize project.config event = .ok normal ∧ dump normal = .ok text := by
  intro project envelope event clock s
  have htimed : Json.parse? timed.render = some timed := Json.parse?_render (by decide)
  have hloaded : project.Loaded := ⟨_, timed, timed, htimed, Or.inl rfl, rfl⟩
  have hevent : Json.parse? event.render = some event := Json.parse?_render (by decide)
  have htotals : (s.process .running clock envelope project).map (fun p =>
      (p.2.dropped, p.2.forwarded.length, p.1.log.total)) = .ok (2, 1, 3) := by
    decide +kernel
  obtain ⟨hreturns, hnormal, -⟩ := process_returns hloaded
  obtain ⟨p, hp, hprocess⟩ := hreturns .running clock envelope s
  obtain ⟨normal, text, hnormal, -, -, htext, -⟩ := hnormal _ event hevent
  rw [hprocess] at htotals
  exact ⟨hloaded, hevent, ⟨p, hp, Except.ok.inj htotals⟩, normal, text, hnormal, htext⟩

end Raising

end Telemetry

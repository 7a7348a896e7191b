import Telemetry.Proofs.Fallible
import Telemetry.Proofs.Json.RoundTrip
import Telemetry.Proofs.Ordered
import Telemetry.Project

/-!
# Configurations by their sections

A configuration that can be read is put together from its sections, each field from one of them, and
within a section entry by entry (`Config.read_eq_ok_iff`).  A section of the wrong shape turns its feature
off, and an entry of the wrong shape counts for nothing.

Two members are not read in that way: the unit of a builtin measurement and the type of a breakdown have to
be strings where they are given.  One that is not takes the whole configuration with it, the project, and
all projects of its file (`read_by_sections`).
-/

namespace Telemetry

namespace Config

/-! ## Entries -/

/-- The items of a member; none if it is no list. -/
def items (j : Json) (name : String) : List Json := ((j.get? (ascii name)).bind Json.array?).getD []

/-- The builtin measurement that an entry names. -/
def builtin? (entry : Json) : Option Builtin :=
  (entry.text? "name").map fun name =>
    ⟨Bytes.lower name, (entry.text? "unit").getD Identifier.defaultUnit⟩

/-- The breakdown that an entry describes. -/
def breakdown? (name : Bytes) (entry : Json) : Option Breakdown :=
  if entry.text? "type" = some breakdownKind then
    some ⟨name, (items entry "matches").filterMap Json.string?⟩
  else none

/-- A member that is there and no string. -/
def Misused (j : Json) (name : String) : Prop := ∃ v, j.get? (ascii name) = some v ∧ v.string? = none

/-- An entry that names a builtin measurement with a unit that is no string. -/
def BadUnit (entry : Json) : Prop := (entry.text? "name").isSome ∧ Misused entry "unit"

theorem getOr_eq_ok_iff {j : Json} {name : String} {default s : Bytes} :
    j.getOr Json.string? (ascii name) default = .ok s ↔
      ¬Misused j name ∧ (j.text? name).getD default = s := by
  unfold Json.getOr Json.text? Misused
  cases hv : j.get? (ascii name) with
  | none => simp
  | some v => cases hs : v.string? <;> simp [Json.expect, hs]

theorem readBuiltin_eq_ok_iff {entry : Json} {r : Option Builtin} :
    readBuiltin entry = .ok r ↔ ¬BadUnit entry ∧ builtin? entry = r := by
  unfold readBuiltin BadUnit builtin?
  cases hname : entry.text? "name" with
  | none => simp
  | some name =>
    simp only [bind_eq_ok, getOr_eq_ok_iff]
    constructor
    · rintro ⟨unit, ⟨hunit, rfl⟩, h⟩
      cases h
      exact ⟨fun hbad => hunit hbad.2, rfl⟩
    · rintro ⟨hunit, rfl⟩
      exact ⟨_, ⟨fun hmisused => hunit ⟨rfl, hmisused⟩, rfl⟩, rfl⟩

theorem readBreakdown_eq_ok_iff {name : Bytes} {entry : Json} {r : Option Breakdown} :
    readBreakdown name entry = .ok r ↔ ¬Misused entry "type" ∧ breakdown? name entry = r := by
  cases entry with
  | object members =>
    -- a type that is missing is read as empty, which is no kind
    have hkind : ∀ type : Option Bytes, type.getD [] = breakdownKind ↔ type = some breakdownKind := by
      rintro (_ | type)
      · exact iff_of_false (by decide) (by simp)
      · simp
    simp only [readBreakdown, breakdown?, items, bind_eq_ok, getOr_eq_ok_iff, ← hkind]
    constructor
    · rintro ⟨kind, ⟨hmisused, rfl⟩, h⟩
      refine ⟨hmisused, ?_⟩
      split at h <;> cases h
      · next heq => rw [if_pos heq]
      · next hne => rw [if_neg hne]
    · rintro ⟨hmisused, rfl⟩
      refine ⟨_, ⟨hmisused, rfl⟩, ?_⟩
      split <;> rfl
  | _ => simp [readBreakdown, breakdown?, Misused, Json.text?, Json.get?]

/-! ## Sections -/

/-- The values of the sections that concern extraction. -/
structure Sections where
  session : Option Json
  transaction : Option Json
  measurements : Option Json
  breakdowns : Option Json
  filter : Option Json
  sampling : Option Json

namespace Sections

/-- The sections of a configuration. -/
def of (j : Json) : Sections :=
  ⟨j.get? (ascii "sessionMetrics"), j.get? (ascii "transactionMetrics"), j.get? (ascii "measurements"),
    j.get? (ascii "breakdownsV2"), j.get? (ascii "filterSettings"), j.get? (ascii "dynamicSampling")⟩

/-- The entries of builtin measurements. -/
def builtins (s : Sections) : List Json := s.measurements.elim [] (items · "builtinMeasurements")

/-- The entries of breakdowns under their names. -/
def named (s : Sections) : List (Bytes × Json) := (s.breakdowns.bind Json.object?).getD []

/-- The entries of sampling rules. -/
def rules (s : Sections) : List Json := s.sampling.elim [] (items · "rules")

/-- No unit and no type is misused. -/
structure Readable (s : Sections) : Prop where
  units : ∀ entry ∈ s.builtins, ¬BadUnit entry
  types : ∀ entry ∈ s.named, ¬Misused entry.2 "type"

/-- The configuration that sections make, each field from one of them. -/
def config (s : Sections) : Config where
  sessionVersion := ((s.session.bind fun j => j.get? (ascii "version")).bind natural?).getD 0
  transactionVersion := (s.transaction.bind fun j => j.get? (ascii "version")).bind natural?
  measurements := (s.measurements.bind Json.object?).map fun members =>
    ⟨s.builtins.filterMap builtin?,
      ((Ordered.get? (ascii "maxCustomMeasurements") members).bind natural?).getD 0⟩
  breakdowns := s.named.filterMap fun entry => breakdown? entry.1 entry.2
  filter := (s.filter.map Filter.read).getD {}
  sampling := ⟨s.rules.filterMap fun rule => (Sampling.Rule.read rule).toOption⟩

end Sections

/-- Parts of two configurations agree where their sections do. -/
structure Sections.Alike (s s' : Sections) (c c' : Config) : Prop where
  session : s.session = s'.session → c.sessionVersion = c'.sessionVersion
  transaction : s.transaction = s'.transaction → c.transactionVersion = c'.transactionVersion
  measurements : s.measurements = s'.measurements → c.measurements = c'.measurements
  breakdowns : s.breakdowns = s'.breakdowns → c.breakdowns = c'.breakdowns
  filter : s.filter = s'.filter → c.filter = c'.filter
  sampling : s.sampling = s'.sampling → c.sampling = c'.sampling

/-- Each part is made of its own section. -/
theorem Sections.alike (s s' : Sections) : s.Alike s' s.config s'.config := by
  refine ⟨fun h => ?_, fun h => ?_, fun h => ?_, fun h => ?_, fun h => ?_, fun h => ?_⟩ <;>
    simp only [config, builtins, named, rules, h]

/-- The entries of a section count one by one, those that are none not at all. -/
structure Sections.Entrywise (s : Sections) (c : Config) : Prop where
  builtins : c.measurements.elim [] MeasurementRules.builtins = s.builtins.filterMap builtin?
  breakdowns : c.breakdowns = s.named.filterMap fun entry => breakdown? entry.1 entry.2
  rules : c.sampling.rules = s.rules.filterMap fun rule => (Sampling.Rule.read rule).toOption

theorem Sections.entrywise (s : Sections) : s.Entrywise s.config := by
  refine ⟨?_, rfl, rfl⟩
  unfold config builtins items
  cases s.measurements with
  | none => rfl
  | some measurements => cases measurements <;> rfl

theorem readMeasurements_eq_ok_iff {j : Json} {r : Option MeasurementRules} :
    readMeasurements j = .ok r ↔
      (∀ entry ∈ (Sections.of j).builtins, ¬BadUnit entry) ∧ (Sections.of j).config.measurements = r := by
  unfold readMeasurements Sections.config Sections.builtins Sections.of items
  cases j.get? (ascii "measurements") with
  | none => simp
  | some measurements =>
    cases measurements with
    | object members =>
      simp only [bind_eq_ok, mapM_eq_ok_iff_map fun _ _ => readBuiltin_eq_ok_iff]
      constructor
      · rintro ⟨_, ⟨hunits, rfl⟩, h⟩
        cases h
        exact ⟨hunits, by simp [Json.object?, Json.get?]⟩
      · rintro ⟨hunits, rfl⟩
        exact ⟨_, ⟨hunits, rfl⟩, by simp [Json.object?, Json.get?]⟩
    | _ => simp [Json.get?, Json.object?]

theorem readBreakdowns_eq_ok_iff {j : Json} {r : List Breakdown} :
    readBreakdowns j = .ok r ↔
      (∀ entry ∈ (Sections.of j).named, ¬Misused entry.2 "type") ∧
        (Sections.of j).config.breakdowns = r := by
  unfold readBreakdowns Sections.config Sections.named Sections.of
  cases j.get? (ascii "breakdownsV2") with
  | none => simp
  | some breakdowns =>
    cases breakdowns with
    | object members =>
      simp only [bind_eq_ok, mapM_eq_ok_iff_map fun _ _ => readBreakdown_eq_ok_iff]
      constructor
      · rintro ⟨_, ⟨htypes, rfl⟩, h⟩
        cases h
        exact ⟨htypes, by simp [Json.object?, List.filterMap_map]⟩
      · rintro ⟨htypes, rfl⟩
        exact ⟨_, ⟨htypes, rfl⟩, by simp [Json.object?, List.filterMap_map]⟩
    | _ => simp [Json.object?]

/-- The other four sections are read without a fault. -/
theorem config_of (j : Json) :
    (Sections.of j).config.sessionVersion = readSessionVersion j ∧
      (Sections.of j).config.transactionVersion = readTransactionVersion j ∧
      (Sections.of j).config.filter = readFilter j ∧ (Sections.of j).config.sampling = readSampling j := by
  have hpath : ∀ name, j.path? [name, "version"] =
      (j.get? (ascii name)).bind fun value => value.get? (ascii "version") := by
    intro name
    simp [Json.path?]
  refine ⟨?_, ?_, rfl, ?_⟩
  · rw [readSessionVersion, hpath]
    rfl
  · rw [readTransactionVersion, hpath]
    rfl
  · unfold readSampling Sections.config Sections.rules Sections.of
    cases j.get? (ascii "dynamicSampling") <;> rfl

/-- **A configuration is read section by section**, unless a unit or a type is misused. -/
theorem read_eq_ok_iff {j : Json} {c : Config} :
    read j = .ok c ↔ (Sections.of j).Readable ∧ (Sections.of j).config = c := by
  obtain ⟨hsession, htransaction, hfilter, hsampling⟩ := config_of j
  simp only [read, bind_eq_ok, readMeasurements_eq_ok_iff, readBreakdowns_eq_ok_iff, ← hsession,
    ← htransaction, ← hfilter, ← hsampling]
  constructor
  · rintro ⟨_, ⟨hunits, rfl⟩, _, ⟨htypes, rfl⟩, h⟩
    cases h
    exact ⟨⟨hunits, htypes⟩, rfl⟩
  · rintro ⟨⟨hunits, htypes⟩, rfl⟩
    exact ⟨_, ⟨hunits, rfl⟩, _, ⟨htypes, rfl⟩, rfl⟩

end Config

/-! ## Projects -/

namespace Project

open Config (Sections)

/-- The scope that a project names. -/
def scope? (j : Json) : Option Scope :=
  ((j.get? (ascii "organizationId")).bind Config.natural?).bind fun org =>
    ((j.get? (ascii "projectId")).bind Config.natural?).map fun project => ⟨org, project⟩

/-- The project of a JSON value by its members. -/
def project? (j : Json) : Option Project :=
  (scope? j).map fun scope =>
    ⟨scope, ((j.get? (ascii "disabled")).bind Json.bool?).getD false,
      (j.get? (ascii "config")).elim {} fun c => (Sections.of c).config⟩

/-- The configuration of a project, if it has one, can be read. -/
def Readable (j : Json) : Prop := ∀ c ∈ j.get? (ascii "config"), (Sections.of c).Readable

theorem read_eq_ok_iff {j : Json} {p : Project} : read j = .ok p ↔ Readable j ∧ project? j = some p := by
  cases j with
  | object members =>
    unfold read project? scope? Readable
    cases (Json.object members).get? (ascii "organizationId") |>.bind Config.natural? with
    | none => simp [Json.object?]
    | some org =>
      cases (Json.object members).get? (ascii "projectId") |>.bind Config.natural? with
      | none => simp [Json.object?]
      | some project =>
        cases (Json.object members).get? (ascii "config") with
        | none => simp [Json.object?]
        | some c => simp [Json.object?, bind_eq_ok, mapError_eq_ok, Config.read_eq_ok_iff]
  | _ =>
    refine iff_of_false nofun ?_
    rintro ⟨-, ⟨⟩⟩

/-! ## Files -/

variable {path text : Bytes} {projects : Entries UInt64 Project}

/-- A file yields the projects of its list, if each of them has a scope and can be read. -/
theorem ofFile_eq_ok_iff : ofFile path (some text) = .ok projects ↔
    ∃ items, Json.parse? text = some (.array items) ∧ (∀ j ∈ items, Readable j ∧ (scope? j).isSome) ∧
      Ordered.ofList ((items.filterMap project?).map fun p => (p.scope.project, p)) = projects := by
  have hread : ∀ j p, (read j).mapError FileFault.project = .ok p ↔ Readable j ∧ project? j = some p := by
    intro j p
    rw [mapError_eq_ok, read_eq_ok_iff]
  have hall : ∀ items : List Json, (∀ j ∈ items, Readable j ∧ (project? j).isSome) ↔
      ∀ j ∈ items, Readable j ∧ (scope? j).isSome := by
    intro items
    simp only [project?, Option.isSome_map]
  constructor
  · intro h
    unfold ofFile at h
    dsimp only at h
    split at h
    · cases h
    · next items hitems =>
      obtain ⟨_, hprojects, h⟩ := bind_eq_ok.mp h
      cases h
      obtain ⟨hreadable, rfl⟩ := (mapM_eq_ok_iff_filterMap hread).mp hprojects
      obtain ⟨j, hparse, hitems⟩ := Option.bind_eq_some_iff.mp hitems
      cases j with
      | array =>
        cases hitems
        exact ⟨items, hparse, (hall items).mp hreadable, rfl⟩
      | _ => cases hitems
  · rintro ⟨items, hparse, hreadable, rfl⟩
    simp only [ofFile, hparse, Option.bind_some, Json.array?]
    exact bind_eq_ok.mpr
      ⟨_, (mapM_eq_ok_iff_filterMap hread).mpr ⟨(hall items).mpr hreadable, rfl⟩, rfl⟩

/-- The projects of a list by id: of each id the last one. -/
theorem get?_ofList_projects (id : UInt64) (projects : List Project) :
    Ordered.get? id (Ordered.ofList (projects.map fun p => (p.scope.project, p))) =
      projects.reverse.find? fun p => id = p.scope.project := by
  rw [Ordered.get?_ofList, ← List.map_reverse]
  induction projects.reverse with
  | nil => rfl
  | cons p rest ih =>
    rw [List.map_cons, Ordered.get?, List.find?_cons, ih]
    by_cases h : id = p.scope.project <;> simp [h]

/-- **Configurations by their sections.**  A configuration can be read exactly if no unit and no type in
it is misused; then its parts agree with those of any other one where the sections do, and count entry by
entry.  A file can be read exactly if it is a list of values that name a scope and whose configurations can
be read; then each project is that of the last value with its id. -/
theorem read_by_sections (j : Json) (path text : Bytes) :
    ((∃ c, Config.read j = .ok c) ↔ (Sections.of j).Readable) ∧
    (∀ c, Config.read j = .ok c → (Sections.of j).Entrywise c ∧
      ∀ j' c', Config.read j' = .ok c' → (Sections.of j).Alike (Sections.of j') c c') ∧
    ((∃ projects, ofFile path (some text) = .ok projects) ↔
      ∃ items, Json.parse? text = some (.array items) ∧ ∀ j ∈ items, Readable j ∧ (scope? j).isSome) ∧
    ∀ projects, ofFile path (some text) = .ok projects →
      ∃ items, Json.parse? text = some (.array items) ∧ ∀ id, Ordered.get? id projects =
        (items.filterMap project?).reverse.find? fun p => id = p.scope.project := by
  refine ⟨⟨?_, ?_⟩, ?_, ⟨?_, ?_⟩, ?_⟩
  · rintro ⟨c, hc⟩
    exact (Config.read_eq_ok_iff.mp hc).1
  · intro h
    exact ⟨_, Config.read_eq_ok_iff.mpr ⟨h, rfl⟩⟩
  · intro c hc
    obtain ⟨-, rfl⟩ := Config.read_eq_ok_iff.mp hc
    refine ⟨Sections.entrywise _, ?_⟩
    intro j' c' hc'
    obtain ⟨-, rfl⟩ := Config.read_eq_ok_iff.mp hc'
    exact Sections.alike _ _
  · rintro ⟨projects, h⟩
    obtain ⟨items, hparse, hreadable, -⟩ := ofFile_eq_ok_iff.mp h
    exact ⟨items, hparse, hreadable⟩
  · rintro ⟨items, hparse, hreadable⟩
    exact ⟨_, ofFile_eq_ok_iff.mpr ⟨items, hparse, hreadable, rfl⟩⟩
  · intro projects h
    obtain ⟨items, hparse, -, rfl⟩ := ofFile_eq_ok_iff.mp h
    exact ⟨items, hparse, fun id => get?_ofList_projects id _⟩

/-- A project with a number for the type of a breakdown. -/
def misused : Json := .object [
  (ascii "config", .object [
    (ascii "breakdownsV2", .object [(ascii "x", .object [(ascii "type", .number (.unsigned 5))])])]),
  (ascii "organizationId", .number (.unsigned 1)), (ascii "projectId", .number (.unsigned 1))]

/-- A project without a configuration. -/
def plain : Json := .object [
  (ascii "organizationId", .number (.unsigned 1)), (ascii "projectId", .number (.unsigned 2))]

/-- A breakdown whose type is no string takes its project with it, and the other projects of the file. -/
theorem ofFile_misused :
    Json.parse? (Json.array [misused, plain]).render = some (.array [misused, plain]) ∧
      read misused = .error (.misuse .wrongKind) ∧ read plain = .ok ⟨⟨1, 2⟩, false, {}⟩ ∧
      ofFile (ascii "projects.json") (some (Json.array [misused, plain]).render) =
        .error (.project (.misuse .wrongKind)) := by
  have hparse : Json.parse? (Json.array [misused, plain]).render = some (.array [misused, plain]) :=
    Json.parse?_render (by decide)
  refine ⟨hparse, rfl, rfl, ?_⟩
  simp only [ofFile, hparse]
  rfl

end Project

end Telemetry

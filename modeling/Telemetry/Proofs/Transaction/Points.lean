import Telemetry.Proofs.Event.Times
import Telemetry.Proofs.Extraction.Raising
import Telemetry.Proofs.Json.Encodable
import Telemetry.Proofs.Json.RoundTrip
import Telemetry.Proofs.Json.Views

/-!
# The points of a transaction

What a transaction gives is told of the event (`Gives`): a duration, measurements and the entries of
breakdowns, each a number with a unit and a source.  The readings of the extraction are these samples in the
order of their sources (`mem_samples_iff`, `pairwise_samples`).  Names and units are text from clients and
projects, joined without escaping; but a joined name that can be read has exactly the parts that it was joined
from (`parse?_fullName`), so no name or unit makes a metric of another namespace, name or unit.
-/

namespace Telemetry.Transaction

open Binary64 (value)
open Bytes

/-! ## What a transaction gives -/

/-- What a metric is taken from. -/
inductive Source where
  | duration
  | measurement (name : Bytes)
  /-- An entry of a breakdown. -/
  | part (breakdown key : Bytes)

namespace Source

/-- The name of the metric, without namespace and unit. -/
def name : Source → Bytes
  | .duration => ascii "duration"
  | .measurement name => ascii "measurements." ++ name
  | .part breakdown key => ascii "breakdowns." ++ breakdown ++ byte '.' :: key

/-- The duration first, then measurements by their names, then entries by breakdown and key. -/
def Before : Source → Source → Prop
  | .duration, .measurement _ | .duration, .part _ _ | .measurement _, .part _ _ => True
  | .measurement name, .measurement name' => name < name'
  | .part breakdown key, .part breakdown' key' => breakdown < breakdown' ∨ breakdown = breakdown' ∧ key < key'
  | _, _ => False

end Source

/-- A number from a source, with its unit. -/
structure Sample where
  source : Source
  unit : Bytes
  value : Float

namespace Sample

/-- The full name of the metric. -/
def name (s : Sample) : Bytes := fullName s.source.name s.unit

def point (stop : Float) (tags : Tags) (s : Sample) : Point Float :=
  ⟨s.name, .distribution [s.value], Binary64.toWord stop, tags⟩

/-- The identifier that a full name is put together from. -/
def identifier (s : Sample) : Identifier := ⟨.distribution, ascii "transactions", s.source.name, s.unit⟩

end Sample

/-- The unit of an entry: its own if that is valid, else another one. -/
inductive UnitOf (default : Bytes) (entry : Json) : Bytes → Prop
  | own {unit : Bytes} (h : entry.get? (ascii "unit") = some (.string unit))
      (hvalid : Identifier.validUnit unit = true) : UnitOf default entry unit
  | default (h : ∀ unit, entry.get? (ascii "unit") = some (.string unit) →
      Identifier.validUnit unit = false) : UnitOf default entry default

/-- The unit of a measurement without a valid one: that of the first builtin of its name, else none. -/
inductive DefaultOf (config : Config) (name : Bytes) : Bytes → Prop
  | builtin {rules : MeasurementRules} {before after : List Builtin} {b : Builtin}
      (hrules : config.measurements = some rules) (h : rules.builtins = before ++ b :: after)
      (hname : b.name = name) (hbefore : ∀ earlier ∈ before, earlier.name ≠ name) :
      DefaultOf config name b.unit
  | none (h : ∀ rules, config.measurements = some rules → ∀ b ∈ rules.builtins, b.name ≠ name) :
      DefaultOf config name (ascii "none")

/-- What a transaction that ends at a time gives: its duration, and each number among its measurements and
in its breakdowns, but for totals, whose name is valid. -/
inductive Gives (config : Config) (event : Json) (stop : Float) : Sample → Prop
  | duration {start : Float} (hstart : Event.timeAt? event "start_timestamp" = some start)
      (hle : value start ≤ value stop) :
      Gives config event stop ⟨.duration, ascii "millisecond", (stop - start) * 1000⟩
  | measurement {members : List (Bytes × Json)} {name default unit : Bytes} {entry : Json} {x : Number}
      (hmembers : event.get? (ascii "measurements") = some (.object members))
      (hentry : (name, entry) ∈ members)
      (hx : entry.get? (ascii "value") = some (.number x)) (hdefault : DefaultOf config name default)
      (hunit : UnitOf default entry unit)
      (hvalid : (Identifier.parse? (fullName (ascii "measurements." ++ name) unit)).isSome = true) :
      Gives config event stop ⟨.measurement name, unit, x.toFloat⟩
  | part {breakdowns entries : List (Bytes × Json)} {breakdown key unit : Bytes} {entry : Json} {x : Number}
      (hbreakdowns : event.get? (ascii "breakdowns") = some (.object breakdowns))
      (hentries : (breakdown, .object entries) ∈ breakdowns) (hentry : (key, entry) ∈ entries)
      (hkey : key ≠ ascii "total.time") (hx : entry.get? (ascii "value") = some (.number x))
      (hunit : UnitOf (ascii "none") entry unit)
      (hvalid : (Identifier.parse?
          (fullName (ascii "breakdowns." ++ breakdown ++ byte '.' :: key) unit)).isSome = true) :
      Gives config event stop ⟨.part breakdown key, unit, x.toFloat⟩

variable {config : Config} {event entry : Json} {stop : Float} {name unit default : Bytes}

/-! ## Units -/

theorem unitOf_iff : UnitOf default entry unit ↔ unit = unitOr default entry := by
  have hown : ∀ own, entry.get? (ascii "unit") = some (.string own) ↔ entry.text? "unit" = some own :=
    fun _ => Json.text?_eq_some.symm
  constructor
  · intro h
    cases h with
    | own h hvalid => rw [unitOr, (hown _).mp h, Option.filter_some, if_pos hvalid, Option.getD_some]
    | default h =>
      have hnone : (entry.text? "unit").filter Identifier.validUnit = none := by
        rw [Option.filter_eq_none_iff]
        intro own htext
        simp [h own ((hown own).mpr htext)]
      rw [unitOr, hnone, Option.getD_none]
  · rintro rfl
    unfold unitOr
    cases h : (entry.text? "unit").filter Identifier.validUnit with
    | some own =>
      obtain ⟨htext, hvalid⟩ := Option.filter_eq_some_iff.mp h
      exact .own ((hown own).mpr htext) hvalid
    | none =>
      refine .default ?_
      intro own hget
      simpa using Option.filter_eq_none_iff.mp h own ((hown own).mp hget)

theorem defaultOf_iff : DefaultOf config name unit ↔ unit = defaultUnit config.measurements name := by
  constructor
  · intro h
    cases h with
    | @builtin rules before after b hrules h hname hbefore =>
      have hfind : rules.builtins.find? (fun b => b.name = name) = some b := by
        rw [List.find?_eq_some_iff_append]
        exact ⟨by simp [hname], before, after, h, by simpa using hbefore⟩
      simp [defaultUnit, hrules, Measurements.builtin?, hfind]
    | none h =>
      cases hrules : config.measurements with
      | none => rfl
      | some rules =>
        have hfind : rules.builtins.find? (fun b => b.name = name) = none := by
          rw [List.find?_eq_none]
          simpa using h rules hrules
        simp [defaultUnit, Measurements.builtin?, hfind, Identifier.defaultUnit]
  · rintro rfl
    cases hrules : config.measurements with
    | none => exact .none fun rules h => by cases hrules.symm.trans h
    | some rules =>
      cases hfind : rules.builtins.find? (fun b => b.name = name) with
      | some b =>
        obtain ⟨hname, before, after, h, hbefore⟩ := List.find?_eq_some_iff_append.mp hfind
        have hunit : defaultUnit (some rules) name = b.unit := by
          simp [defaultUnit, Measurements.builtin?, hfind]
        rw [hunit]
        exact .builtin hrules h (by simpa using hname) (by simpa using hbefore)
      | none =>
        have hunit : defaultUnit (some rules) name = ascii "none" := by
          simp [defaultUnit, Measurements.builtin?, hfind, Identifier.defaultUnit]
        rw [hunit]
        refine .none ?_
        intro rules' hrules'
        obtain rfl := Option.some.inj (hrules.symm.trans hrules')
        simpa using hfind

/-! ## Samples -/

/-- The samples of measurements. -/
def measurementSamples (rules : Option MeasurementRules) (event : Json) : List Sample :=
  (membersAt event "measurements").filterMap fun (name, entry) =>
    (Measurements.number? entry).map fun x =>
      ⟨.measurement name, unitOr (defaultUnit rules name) entry, x⟩

/-- The samples of one breakdown. -/
def partSamples (breakdown : Bytes) (entries : Json) : List Sample :=
  (entries.object?.getD []).filterMap fun (key, entry) =>
    if key = Breakdowns.totalName then none
    else (Measurements.number? entry).map fun x =>
      ⟨.part breakdown key, unitOr Identifier.defaultUnit entry, x⟩

def breakdownSamples (event : Json) : List Sample :=
  (membersAt event "breakdowns").flatMap fun (name, entries) => partSamples name entries

def durationSample? (event : Json) (stop : Float) : Option Sample :=
  (duration? event stop).map fun r => ⟨.duration, ascii "millisecond", r.value⟩

/-- The full name of the sample is a valid one. -/
def Sample.named (s : Sample) : Bool := (Identifier.parse? s.name).isSome

/-- The samples of an event. -/
def samples (config : Config) (event : Json) (stop : Float) : List Sample :=
  (durationSample? event stop).toList ++
    (measurementSamples config.measurements event ++ breakdownSamples event).filter Sample.named

/-- What the points are made of. -/
def Sample.reading (s : Sample) : Reading := ⟨s.name, s.value⟩

theorem map_reading_measurementSamples (rules : Option MeasurementRules) (event : Json) :
    (measurementSamples rules event).map Sample.reading = measurements rules event := by
  rw [measurementSamples, List.map_filterMap, measurements]
  simp only [Option.map_map]
  rfl

theorem map_reading_breakdownSamples (event : Json) :
    (breakdownSamples event).map Sample.reading = breakdowns event := by
  rw [breakdownSamples, List.map_flatMap, breakdowns]
  congr 1
  funext m
  obtain ⟨name, entries⟩ := m
  dsimp only [partSamples, breakdown]
  rw [List.map_filterMap]
  congr 1
  funext m
  obtain ⟨key, entry⟩ := m
  dsimp only
  split_ifs
  · rfl
  · rw [Option.map_map]
    rfl

theorem map_reading_durationSample? (event : Json) (stop : Float) :
    (durationSample? event stop).map Sample.reading = duration? event stop := by
  unfold durationSample? duration?
  cases Event.timeAt? event "start_timestamp" with
  | none => rfl
  | some start =>
    dsimp only
    split_ifs <;> rfl

theorem map_reading_samples (config : Config) (event : Json) (stop : Float) :
    (samples config event stop).map Sample.reading = (duration? event stop).toList ++
      (measurements config.measurements event ++ breakdowns event).filter Reading.named := by
  rw [samples, List.map_append, ← Option.toList_map, map_reading_durationSample?,
    ← map_reading_measurementSamples, ← map_reading_breakdownSamples, ← List.map_append, List.filter_map]
  rfl

/-- The points of a transaction are its samples, one by one. -/
theorem points?_eq_some (htype : (event.text? "type").getD (ascii "transaction") = ascii "transaction")
    (hobject : event.object?.isSome = true) (hstop : Event.timeAt? event "timestamp" = some stop) :
    points? config event = some ((samples config event stop).map (Sample.point stop (tags event))) := by
  have hpoints : points? config event = some ((((duration? event stop).toList ++
      (measurements config.measurements event ++ breakdowns event).filter Reading.named)).map fun r =>
        ⟨r.name, .distribution [r.value], Binary64.toWord stop, tags event⟩) := by
    simp [points?, htype, hobject, hstop]
  rw [hpoints, ← map_reading_samples, List.map_map]
  rfl

theorem exists_samples {points : List (Point Float)} (h : points? config event = some points) :
    ∃ stop, Event.timeAt? event "timestamp" = some stop ∧
      points = (samples config event stop).map (Sample.point stop (tags event)) := by
  obtain ⟨stop, hstop, rfl⟩ := exists_readings h
  refine ⟨stop, hstop, ?_⟩
  rw [← map_reading_samples, List.map_map]
  rfl

theorem points?_eq_none (h : event.object? = none ∨
    (event.text? "type").getD (ascii "transaction") ≠ ascii "transaction" ∨
    Event.timeAt? event "timestamp" = none) : points? config event = none := by
  rcases h with h | h | h <;> simp [points?, h]

/-! ## Which samples there are -/

theorem number?_eq_some {x : Float} : Measurements.number? entry = some x ↔
    ∃ n : Number, entry.get? (ascii "value") = some (.number n) ∧ n.toFloat = x := by
  simp only [Measurements.number?, Option.bind_eq_some_iff, Json.float?_eq_some]
  constructor
  · rintro ⟨_, hget, n, rfl, rfl⟩
    exact ⟨n, hget, rfl⟩
  · rintro ⟨n, hget, rfl⟩
    exact ⟨_, hget, n, rfl, rfl⟩

theorem mem_membersAt {name : String} {m : Bytes × Json} : m ∈ membersAt event name ↔
    ∃ members, event.get? (ascii name) = some (.object members) ∧ m ∈ members := by
  unfold membersAt
  cases h : (event.get? (ascii name)).bind Json.object? with
  | none =>
    refine iff_of_false (by simp) ?_
    rintro ⟨members, hget, -⟩
    cases h.symm.trans (Json.bind_object?_eq_some.mpr hget)
  | some members =>
    rw [Option.getD_some, Json.bind_object?_eq_some.mp h]
    simp

theorem mem_durationSample? {s : Sample} : s ∈ (durationSample? event stop).toList ↔
    ∃ start, Event.timeAt? event "start_timestamp" = some start ∧ start ≤ stop ∧
      s = ⟨.duration, ascii "millisecond", (stop - start) * 1000⟩ := by
  unfold durationSample? duration?
  cases Event.timeAt? event "start_timestamp" with
  | none => simp
  | some start =>
    dsimp only
    split_ifs with hle <;> simp [hle]

theorem mem_measurementSamples {rules : Option MeasurementRules} {s : Sample} :
    s ∈ measurementSamples rules event ↔ ∃ name entry x, (name, entry) ∈ membersAt event "measurements" ∧
      Measurements.number? entry = some x ∧
      s = ⟨.measurement name, unitOr (defaultUnit rules name) entry, x⟩ := by
  simp only [measurementSamples, List.mem_filterMap, Prod.exists, Option.map_eq_some_iff]
  constructor
  · rintro ⟨name, entry, hmem, x, hx, rfl⟩
    exact ⟨name, entry, x, hmem, hx, rfl⟩
  · rintro ⟨name, entry, x, hmem, hx, rfl⟩
    exact ⟨name, entry, hmem, x, hx, rfl⟩

theorem mem_partSamples {breakdown : Bytes} {members : List (Bytes × Json)} {s : Sample} :
    s ∈ partSamples breakdown (.object members) ↔ ∃ key entry x, (key, entry) ∈ members ∧
      key ≠ Breakdowns.totalName ∧ Measurements.number? entry = some x ∧
      s = ⟨.part breakdown key, unitOr Identifier.defaultUnit entry, x⟩ := by
  have hmem : s ∈ partSamples breakdown (.object members) ↔ ∃ m ∈ members,
      (if m.1 = Breakdowns.totalName then none else (Measurements.number? m.2).map fun x =>
        (⟨.part breakdown m.1, unitOr Identifier.defaultUnit m.2, x⟩ : Sample)) = some s :=
    List.mem_filterMap
  rw [hmem]
  constructor
  · rintro ⟨⟨key, entry⟩, hentry, hs⟩
    split_ifs at hs with hkey
    obtain ⟨x, hx, rfl⟩ := Option.map_eq_some_iff.mp hs
    exact ⟨key, entry, x, hentry, hkey, hx, rfl⟩
  · rintro ⟨key, entry, x, hentry, hkey, hx, rfl⟩
    refine ⟨(key, entry), hentry, (if_neg hkey).trans ?_⟩
    rw [hx]
    rfl

theorem mem_breakdownSamples {s : Sample} : s ∈ breakdownSamples event ↔ ∃ breakdown members,
    (breakdown, .object members) ∈ membersAt event "breakdowns" ∧
      s ∈ partSamples breakdown (.object members) := by
  simp only [breakdownSamples, List.mem_flatMap, Prod.exists]
  constructor
  · rintro ⟨breakdown, entries, hmem, hs⟩
    cases entries with
    | object members => exact ⟨breakdown, members, hmem, hs⟩
    | _ => exact absurd hs List.not_mem_nil
  · rintro ⟨breakdown, members, hmem, hs⟩
    exact ⟨breakdown, .object members, hmem, hs⟩

/-- The samples are what the transaction gives. -/
theorem mem_samples_iff (hstop : Event.timeAt? event "timestamp" = some stop) {s : Sample} :
    s ∈ samples config event stop ↔ Gives config event stop s := by
  simp only [samples, List.mem_append, List.mem_filter, mem_durationSample?, mem_measurementSamples,
    mem_breakdownSamples, mem_partSamples, mem_membersAt, number?_eq_some]
  constructor
  · rintro (⟨start, hstart, hle, rfl⟩ | ⟨hs, hnamed⟩)
    · have hle := (Binary64.le_iff (Event.isFinite_timeAt? hstart) (Event.isFinite_timeAt? hstop)).mp hle
      exact .duration hstart hle
    · rcases hs with ⟨name, entry, x, ⟨members, hmembers, hentry⟩, ⟨n, hn, rfl⟩, rfl⟩ |
        ⟨breakdown, entries, ⟨breakdowns, hbreakdowns, hentries⟩, key, entry, x, hentry, hkey,
          ⟨n, hn, rfl⟩, rfl⟩
      · exact .measurement hmembers hentry hn (defaultOf_iff.mpr rfl) (unitOf_iff.mpr rfl) hnamed
      · exact .part hbreakdowns hentries hentry hkey hn (unitOf_iff.mpr rfl) hnamed
  · intro h
    cases h with
    | @duration start hstart hle =>
      have hle := (Binary64.le_iff (Event.isFinite_timeAt? hstart) (Event.isFinite_timeAt? hstop)).mpr hle
      exact .inl ⟨start, hstart, hle, rfl⟩
    | @measurement members name _ _ entry x hmembers hentry hx hdefault hunit hvalid =>
      refine .inr ⟨.inl ⟨name, entry, x.toFloat, ⟨members, hmembers, hentry⟩, ⟨x, hx, rfl⟩, ?_⟩, hvalid⟩
      rw [unitOf_iff.mp hunit, defaultOf_iff.mp hdefault]
    | @part breakdowns entries breakdown key _ entry x hbreakdowns hentries hentry hkey hx hunit hvalid =>
      refine .inr ⟨.inr ⟨breakdown, entries, ⟨breakdowns, hbreakdowns, hentries⟩, key, entry,
        x.toFloat, hentry,
        hkey, ⟨x, hx, rfl⟩, ?_⟩, hvalid⟩
      rw [unitOf_iff.mp hunit]
      rfl

/-! ## Their order -/

theorem sorted_membersAt (h : event.InOrder) (name : String) : Ordered.Sorted (membersAt event name) := by
  unfold membersAt
  cases hget : (event.get? (ascii name)).bind Json.object? with
  | none => exact Ordered.sorted_nil
  | some members => exact (Json.inOrder_object.mp (h.get? (Json.bind_object?_eq_some.mp hget))).1

theorem pairwise_measurementSamples (h : event.InOrder) (rules : Option MeasurementRules) :
    (measurementSamples rules event).Pairwise fun a b => a.source.Before b.source := by
  refine List.Pairwise.filterMap _ ?_ (sorted_membersAt h "measurements")
  intro m m' hlt s hs s' hs'
  obtain ⟨x, -, rfl⟩ := Option.map_eq_some_iff.mp hs
  obtain ⟨x', -, rfl⟩ := Option.map_eq_some_iff.mp hs'
  exact hlt

theorem pairwise_partSamples {members : List (Bytes × Json)} (h : Ordered.Sorted members)
    (breakdown : Bytes) :
    (partSamples breakdown (.object members)).Pairwise fun a b => a.source.Before b.source := by
  refine List.Pairwise.filterMap _ ?_ h
  intro m m' hlt s hs s' hs'
  dsimp only at hs hs'
  split_ifs at hs hs'
  obtain ⟨x, -, rfl⟩ := Option.map_eq_some_iff.mp hs
  obtain ⟨x', -, rfl⟩ := Option.map_eq_some_iff.mp hs'
  exact .inr ⟨rfl, hlt⟩

theorem source_of_mem_partSamples {breakdown : Bytes} {entries : Json} {s : Sample}
    (h : s ∈ partSamples breakdown entries) : ∃ key, s.source = .part breakdown key := by
  cases entries with
  | object members =>
    obtain ⟨key, entry, x, -, -, -, rfl⟩ := mem_partSamples.mp h
    exact ⟨key, rfl⟩
  | _ => exact absurd h List.not_mem_nil

theorem pairwise_breakdownSamples (h : event.InOrder) :
    (breakdownSamples event).Pairwise fun a b => a.source.Before b.source := by
  refine List.pairwise_flatMap.mpr ⟨?_, (sorted_membersAt h "breakdowns").imp ?_⟩
  · intro m hm
    obtain ⟨breakdown, entries⟩ := m
    obtain ⟨breakdowns, hbreakdowns, hmem⟩ := mem_membersAt.mp hm
    cases entries with
    | object members =>
      have hentries := (Json.inOrder_object.mp (h.get? hbreakdowns)).2 _ hmem
      exact pairwise_partSamples (Json.inOrder_object.mp hentries).1 breakdown
    | _ => exact List.Pairwise.nil
  · intro m m' hlt s hs s' hs'
    obtain ⟨key, hkey⟩ := source_of_mem_partSamples hs
    obtain ⟨key', hkey'⟩ := source_of_mem_partSamples hs'
    rw [hkey, hkey']
    exact .inl hlt

theorem pairwise_samples (h : event.InOrder) (config : Config) (stop : Float) :
    (samples config event stop).Pairwise fun a b => a.source.Before b.source := by
  refine List.pairwise_append.mpr ⟨?_, List.Pairwise.filter _ (List.pairwise_append.mpr
    ⟨pairwise_measurementSamples h config.measurements, pairwise_breakdownSamples h, ?_⟩), ?_⟩
  · cases durationSample? event stop with
    | none => exact List.Pairwise.nil
    | some s => exact List.pairwise_singleton _ s
  · intro s hs s' hs'
    obtain ⟨name, entry, x, -, -, rfl⟩ := mem_measurementSamples.mp hs
    obtain ⟨breakdown, members, -, hs'⟩ := mem_breakdownSamples.mp hs'
    obtain ⟨key, hkey⟩ := source_of_mem_partSamples hs'
    rw [hkey]
    trivial
  · intro s hs s' hs'
    obtain ⟨start, -, -, rfl⟩ := mem_durationSample?.mp hs
    rcases List.mem_append.mp (List.mem_of_mem_filter hs') with hs' | hs'
    · obtain ⟨name, entry, x, -, -, rfl⟩ := mem_measurementSamples.mp hs'
      trivial
    · obtain ⟨breakdown, members, -, hs'⟩ := mem_breakdownSamples.mp hs'
      obtain ⟨key, hkey⟩ := source_of_mem_partSamples hs'
      rw [hkey]
      trivial

/-! ## Their names -/

/-- **A full name that can be read has the parts that it was joined from**, whatever bytes they hold. -/
theorem parse?_fullName (h : (Identifier.parse? (fullName name unit)).isSome = true) :
    Identifier.parse? (fullName name unit) = some ⟨.distribution, ascii "transactions", name, unit⟩ := by
  obtain ⟨⟨kind, space, name', unit'⟩, hm, -, hkind⟩ := names_fullName h
  obtain ⟨rest, hrest, hsplit, hvalid⟩ := Identifier.parse?_eq_some_iff.mp hm
  obtain ⟨hspace, hname, -⟩ := Identifier.valid_iff.mp hvalid
  have hat : byte '@' ∉ name' := fun hmem => absurd (Identifier.validName_mem hname hmem) (by decide)
  obtain rfl : kind = .distribution := hkind
  -- the first slash is the one after the namespace
  have hletters : ascii "d:transactions/" = Kind.distribution.letter :: byte ':' ::
      (ascii "transactions" ++ [byte '/']) := by decide
  have hjoined : ascii "transactions" ++ byte '/' :: (name ++ byte '@' :: unit) =
      space ++ byte '/' :: rest := by
    simpa [fullName, hletters] using hrest
  have hcut := cut?_eq_some_iff.mpr ⟨hjoined, Identifier.slash_not_mem_space hspace⟩
  rw [cut?_eq_some_iff.mpr ⟨rfl, (by decide : byte '/' ∉ ascii "transactions")⟩] at hcut
  obtain ⟨rfl, rfl⟩ := Prod.mk.inj (Option.some.inj hcut)
  -- and the last at-sign is the only one
  cases hlast : cutLast? (byte '@') (name ++ byte '@' :: unit) with
  | none =>
    rw [Identifier.splitUnit, hlast] at hsplit
    obtain ⟨rfl, -⟩ := Prod.mk.inj hsplit
    exact absurd (by simp) hat
  | some parts =>
    rw [Identifier.splitUnit, hlast] at hsplit
    obtain rfl : parts = (name', unit') := hsplit
    have hsame := cut?_eq_some_iff.mpr ⟨(cutLast?_eq_some_iff.mp hlast).1, hat⟩
    rw [cut?_of_parse? h] at hsame
    obtain ⟨rfl, rfl⟩ := Prod.mk.inj (Option.some.inj hsame)
    exact hm

theorem parse?_name_of_gives {s : Sample} (h : Gives config event stop s) :
    Identifier.parse? s.name = some s.identifier := by
  cases h with
  | duration => rfl
  | measurement _ _ _ _ _ hvalid => exact parse?_fullName hvalid
  | part _ _ _ _ _ _ hvalid => exact parse?_fullName hvalid

/-! ## The points of a transaction -/

/-- An object that says of itself to be a transaction, or does not say. -/
structure IsTransaction (event : Json) : Prop where
  object : ∃ members, event = .object members
  type : ∀ s, event.get? (ascii "type") = some (.string s) → s = ascii "transaction"

theorem isTransaction_iff : IsTransaction event ↔ event.object?.isSome = true ∧
    (event.text? "type").getD (ascii "transaction") = ascii "transaction" := by
  have hobject : (∃ members, event = .object members) ↔ event.object?.isSome = true := by
    simp only [Option.isSome_iff_exists, Json.object?_eq_some]
  have htype : (∀ s, event.get? (ascii "type") = some (.string s) → s = ascii "transaction") ↔
      (event.text? "type").getD (ascii "transaction") = ascii "transaction" := by
    simp only [← Json.text?_eq_some]
    cases event.text? "type" <;> simp
  rw [← hobject, ← htype]
  exact ⟨fun h => ⟨h.object, h.type⟩, fun h => ⟨h.1, h.2⟩⟩

/-- **The points of a transaction are its duration, its measurements and the entries of its
breakdowns, in this order, as far as they are numbers with valid names, and nothing else.**  Each is
a distribution of one number with the time of the end and the tags of the transaction, and its name
is read back as the identifier that it was put together from.  What is no transaction, or has no
readable end, has no points at all.  Reading raises nothing.  The order is that of names since
objects have their members in order, as all that are read do (`Json.parse?_inOrder`). -/
theorem points?_documented (config : Config) (event : Json) (h : event.InOrder) :
    Raising.points config event = .ok (points? config event) ∧
    (∀ stop, IsTransaction event → Event.timeAt? event "timestamp" = some stop → ∃ given : List Sample,
      points? config event = some (given.map fun s =>
        ⟨s.name, .distribution [s.value], Binary64.toWord stop, tags event⟩) ∧
      given.Pairwise (fun a b => a.source.Before b.source) ∧
      (∀ s, s ∈ given ↔ Gives config event stop s) ∧
      (∀ s ∈ given, Identifier.parse? s.name = some s.identifier) ∧
      (0 ≤ value stop → value stop < 2 ^ 64 → (Binary64.toWord stop).toNat = ⌊value stop⌋₊)) ∧
    (¬(IsTransaction event ∧ (Event.timeAt? event "timestamp").isSome) → points? config event = none) := by
  refine ⟨Raising.points_eq event config, ?_, ?_⟩
  · intro stop htransaction hstop
    obtain ⟨hobject, htype⟩ := isTransaction_iff.mp htransaction
    refine ⟨samples config event stop, points?_eq_some htype hobject hstop, pairwise_samples h config stop,
      fun s => mem_samples_iff hstop, ?_, Binary64.toNat_toWord (Event.isFinite_timeAt? hstop)⟩
    intro s hs
    exact parse?_name_of_gives ((mem_samples_iff hstop).mp hs)
  · intro hnot
    rw [isTransaction_iff] at hnot
    apply points?_eq_none
    by_contra hall
    rw [not_or, not_or, not_not] at hall
    obtain ⟨hobject, htype, hstop⟩ := hall
    exact hnot ⟨⟨Option.isSome_iff_ne_none.mpr hobject, htype⟩, Option.isSome_iff_ne_none.mpr hstop⟩

/-- A duration, two measurements, one of them with a unit of its own, and a breakdown with a total. -/
theorem points?_documented_order :
    let config : Config := { measurements := some ⟨[⟨ascii "fp", ascii "millisecond"⟩], 10⟩ }
    let entry := fun x : UInt64 => Json.object [(ascii "value", .number (.unsigned x))]
    let event := Json.object [
      (ascii "breakdowns", .object [
        (ascii "ops", .object [(ascii "db", entry 3), (ascii "total.time", entry 4)])]),
      (ascii "measurements", .object [
        (ascii "cls", .object [
          (ascii "unit", .string (ascii "ratio")), (ascii "value", .number (.unsigned 2))]),
        (ascii "fp", entry 1)]),
      (ascii "start_timestamp", .number (.unsigned 4)), (ascii "timestamp", .number (.unsigned 5))]
    event.InOrder ∧ ∃ (given : List Sample) (stop : Float),
      points? config event = some (given.map (Sample.point stop (tags event))) ∧
      given.Pairwise (fun a b => a.source.Before b.source) ∧ (∀ s, s ∈ given ↔ Gives config event stop s) ∧
      given.map Sample.name = [ascii "d:transactions/duration@millisecond",
        ascii "d:transactions/measurements.cls@ratio", ascii "d:transactions/measurements.fp@millisecond",
        ascii "d:transactions/breakdowns.ops.db@none"] := by
  intro config entry event
  have hparse : Json.parse? event.render = some event := Json.parse?_render (by decide)
  have horder : event.InOrder := Json.parse?_inOrder hparse
  have hstop : Event.timeAt? event "timestamp" = some (Binary64.ofWord 5) := by
    obtain ⟨hfinite, hvalue⟩ := Binary64.value_normalize (n := 5) (by decide)
    exact (Event.time?_number (n := .unsigned 5)).mpr
      ⟨rfl, hfinite, (Nat.cast_nonneg 5).trans_eq hvalue.symm⟩
  have hnames : (points? config event).map (·.map (·.name)) = some [
      ascii "d:transactions/duration@millisecond", ascii "d:transactions/measurements.cls@ratio",
      ascii "d:transactions/measurements.fp@millisecond", ascii "d:transactions/breakdowns.ops.db@none"] := by
    decide +kernel
  obtain ⟨-, hgiven, -⟩ := points?_documented config event horder
  obtain ⟨given, hpoints, hpairwise, hmem, -⟩ := hgiven _ ⟨⟨_, rfl⟩, nofun⟩ hstop
  refine ⟨horder, given, _, hpoints, hpairwise, hmem, ?_⟩
  rw [hpoints, Option.map_some, List.map_map] at hnames
  exact Option.some.inj hnames

end Telemetry.Transaction

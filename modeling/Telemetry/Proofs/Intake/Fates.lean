import Telemetry.Proofs.Extraction.NormalForm
import Telemetry.Proofs.Intake.Effects

/-!
# What can become of an item

An item is dropped as a whole for one reason, or its units are read one by one, or it goes on
(`fate_itemEffects`).  The reasons and the numbers of units are said in terms of the payload
(`wholeReason?`, `unreadable`, `units`), not of what the intake does with it.
-/

namespace Telemetry

open Bytes

/-! ## Units of a payload -/

namespace Line

/-- The lines of a payload that are not blank. -/
def lines (payload : Bytes) : List Bytes :=
  (split (byte '\n') payload).filter fun line => !(trim isBlank line).isEmpty

theorem map_snd_readAll (payload : Bytes) (now : UInt64) :
    (readAll payload now).map Prod.snd = (lines payload).map fun line => parse line now := by
  have hlines : lines payload =
      (((split (byte '\n') payload).zipIdx 1).map Prod.fst).filter fun line =>
        !(trim isBlank line).isEmpty := by
    rw [List.zipIdx_map_fst]
    rfl
  rw [hlines, List.filter_map, List.map_map, readAll, List.map_map]
  rfl

theorem length_faults (payload : Bytes) (now : UInt64) : (faults payload now).length =
    (lines payload).countP fun line => (parse line now).toOption.isNone := by
  have hcount : (lines payload).countP (fun line => (parse line now).toOption.isNone) =
      ((readAll payload now).map Prod.snd).countP fun r => r.toOption.isNone := by
    rw [map_snd_readAll, List.countP_map]
    rfl
  rw [hcount, faults, List.length_filterMap_eq_countP, List.countP_map]
  congr 1
  funext e
  obtain ⟨n, r⟩ := e
  cases r <;> rfl

/-- A line that is not faulty has one point. -/
theorem length_faults_add_points (payload : Bytes) (now : UInt64) :
    (faults payload now).length + (points payload now).length = (lines payload).length := by
  have hlength : (lines payload).length = (readAll payload now).length := by
    rw [← List.length_map Prod.snd, map_snd_readAll, List.length_map]
  rw [hlength, faults, points, List.length_filterMap_eq_countP, List.length_filterMap_eq_countP,
    List.length_eq_countP_add_countP fun e => e.2.toOption.isNone]
  congr 2
  · funext e
    obtain ⟨n, r⟩ := e
    cases r <;> rfl
  · funext e
    obtain ⟨n, r⟩ := e
    cases r <;> rfl

end Line

namespace Wire

theorem readAll?_eq (payload : Bytes) (scope : Scope) :
    readAll? payload scope =
      ((Json.parse? payload).bind Json.array?).map fun items => items.map (readBucket scope) := by
  rw [readAll?]
  cases Json.parse? payload <;> rfl

theorem length_faults (results : List (Except Fault (Bucket Float))) :
    (faults results).length = results.countP fun r => r.toOption.isNone := by
  rw [faults, List.length_filterMap_eq_countP]
  congr 1
  funext r
  cases r <;> rfl

theorem length_faults_add_buckets (results : List (Except Fault (Bucket Float))) :
    (faults results).length + (buckets results).length = results.length := by
  rw [length_faults, buckets, List.length_filterMap_eq_countP,
    List.length_eq_countP_add_countP fun r => r.toOption.isNone]
  congr 2
  funext r
  cases r <;> rfl

end Wire

/-! ## Extraction -/

namespace Extraction

/-- An item goes on with its flag set or as it came, and then without points. -/
structure Result.Passes (i : Item) (r : Result) : Prop where
  kind : r.item.kind = i.kind
  item : if r.decision = .extracted then r.item.extracted = true else r.item = i ∧ r.points = []

theorem passes_skip {decision : Decision} (h : decision ≠ .extracted) (i : Item) :
    (Result.skip decision i).Passes i :=
  ⟨rfl, (if_neg h).mpr ⟨rfl, rfl⟩⟩

theorem passes_session (sdk : Option Bytes) (config : Config) (i : Item) (value : Json) :
    (session sdk config i value).Passes i := by
  unfold session
  split
  · next h => exact passes_skip (precheck?_ne_extracted h) i
  · split
    · exact ⟨rfl, rfl⟩
    · exact passes_skip Decision.noConfusion i

theorem passes_transaction {config : Config} {i : Item} {event : Json} {r : Result}
    (h : transaction config i event = .ok r) : r.Passes i := by
  unfold transaction at h
  split at h
  · next hcheck =>
    cases h
    exact passes_skip (precheck?_ne_extracted hcheck) i
  · dsimp only at h
    split at h
    · split at h
      · cases h
        exact ⟨rfl, rfl⟩
      · cases h
    · cases h
      exact passes_skip Decision.noConfusion i

/-- An event that was read has a text in its normal form. -/
theorem transaction_succeeds {config : Config} (hconfig : config.Encodable) (i : Item) {event : Json}
    (h : Json.parse? i.payload = some event) : ∃ r, transaction config i event = .ok r := by
  have htext := Json.dump?_of_encodable
    (Transaction.normalize_encodable hconfig (Json.parse?_encodable h))
  unfold transaction
  split
  · exact ⟨_, rfl⟩
  · dsimp only
    rw [htext]
    split <;> exact ⟨_, rfl⟩

end Extraction

/-! ## Causes -/

/-- What kind of data an item is. -/
def ItemKind.category : ItemKind → Drop.Category
  | .session => .session
  | .transaction => .transaction
  | .metrics | .buckets => .metric

namespace Intake

open Effect (submits)

/-- Why an item is dropped as a whole. -/
def wholeReason? (project : Project) (i : Item) : Option Drop.Reason :=
  match i.kind with
  | .metrics => none
  | .buckets =>
    if ((Json.parse? i.payload).bind Json.array?).isSome then none else some .invalidPayload
  | .session => if (object? i.payload).isSome then none else some .invalidPayload
  | .transaction => match object? i.payload with
    | none => some .invalidPayload
    | some event =>
      if (project.config.filter.reason? event).isSome then some .filtered
      else if (project.config.sampling.decide event).keep then none
      else some .sampled

/-- The units of a payload that cannot be read: lines that are not blank, or entries. -/
def unreadable (receivedAt : UInt64) (scope : Scope) (i : Item) : Nat :=
  match i.kind with
  | .metrics =>
    (Line.lines i.payload).countP fun line => (Line.parse line receivedAt).toOption.isNone
  | .buckets => (((Json.parse? i.payload).bind Json.array?).getD []).countP fun j =>
    (Wire.readBucket scope j).toOption.isNone
  | .session | .transaction => 0

def units (i : Item) : Nat :=
  match i.kind with
  | .metrics => (Line.lines i.payload).length
  | .buckets => (((Json.parse? i.payload).bind Json.array?).getD []).length
  | .session | .transaction => 0

/-! ## Items -/

/-- What the effects of an item come to: one drop, units read one by one, or an item that goes on. -/
inductive Fate (clock : Nat → UInt64) (receivedAt : UInt64) (project : Project) (i : Item) :
    List Effect → Prop
  | dropped (d : Drop) (hreason : wholeReason? project i = some d.reason)
      (hcategory : d.category = i.kind.category)
      (hunread : unreadable receivedAt project.scope i = 0) :
      Fate clock receivedAt project i [.dropItem d]
  | read (hkind : i.kind = .metrics ∨ i.kind = .buckets) (hkept : wholeReason? project i = none)
      (ds : List Drop) (hds : ∀ d ∈ ds, d.reason = .invalidMetric ∧ d.category = i.kind.category)
      (values : List (BucketKey × Value Float))
      (hunread : ds.length = unreadable receivedAt project.scope i)
      (hunits : ds.length + values.length = units i) :
      Fate clock receivedAt project i (ds.map .record ++ submits clock i.kind.category values)
  | passed (hkind : i.kind = .session ∨ i.kind = .transaction)
      (hkept : wholeReason? project i = none) (r : Extraction.Result) (hitem : r.Passes i) :
      Fate clock receivedAt project i (extracted clock i.kind.category project.scope r)

section Fates

variable {clock : Nat → UInt64} {receivedAt : UInt64} {project : Project} {i : Item}

theorem fate_metrics (hkind : i.kind = .metrics) :
    Fate clock receivedAt project i (metricsEffects clock receivedAt project.scope i.payload) := by
  have heffects : metricsEffects clock receivedAt project.scope i.payload =
      ((Line.faults i.payload receivedAt).map fun e =>
        (⟨.invalidMetric, .metric, project.scope, 1, lineDetail e.1 e.2⟩ : Drop)).map .record ++
      submits clock .metric ((Line.points i.payload receivedAt).map (submission project.scope)) := by
    rw [metricsEffects, List.map_map]
    rfl
  have hcategory : i.kind.category = .metric := congrArg ItemKind.category hkind
  rw [heffects, ← hcategory]
  refine .read (Or.inl hkind) (by rw [wholeReason?, hkind]) _ ?_ _ ?_ ?_
  · intro d hd
    obtain ⟨e, -, rfl⟩ := List.mem_map.mp hd
    exact ⟨rfl, rfl⟩
  · rw [List.length_map, Line.length_faults, unreadable, hkind]
  · rw [List.length_map, List.length_map, Line.length_faults_add_points, units, hkind]

theorem fate_buckets (hkind : i.kind = .buckets) :
    Fate clock receivedAt project i (bucketsEffects clock project.scope i.payload) := by
  have hcategory : i.kind.category = .metric := congrArg ItemKind.category hkind
  rw [bucketsEffects, Wire.readAll?_eq]
  cases hitems : (Json.parse? i.payload).bind Json.array? with
  | none =>
    refine .dropped _ ?_ hcategory.symm ?_
    · rw [wholeReason?, hkind, hitems]
      rfl
    · rw [unreadable, hkind, hitems]
      rfl
  | some items =>
    have hrecords : ((Wire.faults (items.map (Wire.readBucket project.scope))).map fun fault =>
          Effect.record ⟨.invalidMetric, .metric, project.scope, 1, fault.message⟩) =
        ((Wire.faults (items.map (Wire.readBucket project.scope))).map fun fault =>
          (⟨.invalidMetric, .metric, project.scope, 1, fault.message⟩ : Drop)).map .record := by
      rw [List.map_map]
      rfl
    rw [Option.map_some]
    dsimp only
    rw [hrecords, ← hcategory]
    refine .read (Or.inr hkind) ?_ _ ?_ _ ?_ ?_
    · rw [wholeReason?, hkind, hitems]
      rfl
    · intro d hd
      obtain ⟨fault, -, rfl⟩ := List.mem_map.mp hd
      exact ⟨rfl, rfl⟩
    · rw [List.length_map, Wire.length_faults, List.countP_map, unreadable, hkind, hitems]
      rfl
    · rw [List.length_map, List.length_map, Wire.length_faults_add_buckets, List.length_map, units,
        hkind, hitems]
      rfl

theorem fate_session (sdk : Option Bytes) (hkind : i.kind = .session) :
    Fate clock receivedAt project i (sessionEffects clock sdk project i) := by
  have hcategory : i.kind.category = .session := congrArg ItemKind.category hkind
  rw [sessionEffects]
  cases hvalue : object? i.payload with
  | none =>
    refine .dropped _ ?_ hcategory.symm (by rw [unreadable, hkind])
    rw [wholeReason?, hkind, hvalue]
    rfl
  | some value =>
    dsimp only
    rw [← hcategory]
    refine .passed (Or.inl hkind) ?_ _ (Extraction.passes_session sdk project.config i value)
    rw [wholeReason?, hkind, hvalue]
    rfl

theorem fate_transaction (hkind : i.kind = .transaction) {es : List Effect}
    (h : transactionEffects clock project i = .ok es) : Fate clock receivedAt project i es := by
  have hcategory : i.kind.category = .transaction := congrArg ItemKind.category hkind
  have hunread : unreadable receivedAt project.scope i = 0 := by rw [unreadable, hkind]
  unfold transactionEffects at h
  split at h
  · next hvalue =>
    cases h
    refine .dropped _ ?_ hcategory.symm hunread
    rw [wholeReason?, hkind, hvalue]
  · next event hvalue =>
    have hwhole : wholeReason? project i = (unwanted? project.config event).map Prod.fst := by
      rw [wholeReason?, hkind, hvalue, unwanted?]
      dsimp only
      cases project.config.filter.reason? event with
      | some reason => rfl
      | none =>
        simp only [Option.isSome_none, Bool.false_eq_true, ↓reduceIte]
        split <;> rfl
    split at h
    · next reason detail hunwanted =>
      cases h
      refine .dropped _ ?_ hcategory.symm hunread
      rw [hwhole, hunwanted]
      rfl
    · next hwanted =>
      cases hr : Extraction.transaction project.config i event with
      | error e =>
        rw [hr] at h
        cases h
      | ok r =>
        rw [hr] at h
        cases h
        rw [← hcategory]
        refine .passed (Or.inr hkind) ?_ r (Extraction.passes_transaction hr)
        rw [hwhole, hwanted]
        rfl

end Fates

/-- **Every item meets one of three fates.** -/
theorem fate_itemEffects {clock : Nat → UInt64} {envelope : Envelope} {project : Project} {i : Item}
    {es : List Effect} (h : itemEffects clock envelope project i = .ok es) :
    Fate clock envelope.receivedAt project i es := by
  unfold itemEffects at h
  split at h
  · next hkind =>
    cases h
    exact fate_metrics hkind
  · next hkind =>
    cases h
    exact fate_buckets hkind
  · next hkind =>
    cases h
    exact fate_session envelope.sdk hkind
  · next hkind => exact fate_transaction hkind h

/-- No item fails for a project whose configuration writes UTF-8. -/
theorem itemEffects_succeed {project : Project} (hconfig : project.config.Encodable)
    (clock : Nat → UInt64) (envelope : Envelope) (i : Item) :
    ∃ es, itemEffects clock envelope project i = .ok es := by
  unfold itemEffects
  split
  · exact ⟨_, rfl⟩
  · exact ⟨_, rfl⟩
  · exact ⟨_, rfl⟩
  · unfold transactionEffects
    split
    · exact ⟨_, rfl⟩
    · next event hvalue =>
      split
      · exact ⟨_, rfl⟩
      · obtain ⟨r, hr⟩ := Extraction.transaction_succeeds hconfig i (Option.filter_eq_some_iff.mp hvalue).1
        rw [hr]
        exact ⟨_, rfl⟩

end Intake

end Telemetry

import Telemetry.Intake
import Telemetry.Proofs.Aggregator.Run
import Telemetry.Proofs.Bucket.Producers

/-!
# What taking in an envelope does

What an item does to the intake is a list of effects that depends on the item, the envelope, the
project and the clock alone (`item_eq`).  So an envelope asks the aggregator for merges that do not depend
on what it stores, and every value among them is canonical.  An item that fails ends the envelope; what the
items before it did stays.  What holds of the effects of every item holds of those of an envelope
(`forall_mem_effects`).
-/

namespace Telemetry.Intake

open Bytes

/-! ## Effects -/

inductive Effect where
  | record (d : Drop)
  | dropItem (d : Drop)
  | submit (now : UInt64) (category : Drop.Category) (key : BucketKey) (value : Value Float)
  /-- So many points were extracted. -/
  | extract (n : Nat)
  | forward (r : Extraction.Result)

namespace Effect

def apply (p : Progress) : Effect → Progress
  | record d => Intake.record d p
  | dropItem d => Intake.dropItem d p
  | submit now category key value => merge now category key value p
  | extract n => (p.1, { p.2 with extracted := p.2.extracted + n })
  | forward r => Intake.forward r p

def applyAll (p : Progress) (effects : List Effect) : Progress := effects.foldl apply p

theorem applyAll_append (p : Progress) (effects more : List Effect) :
    applyAll p (effects ++ more) = applyAll (applyAll p effects) more :=
  List.foldl_append

/-- Values that are submitted one after another. -/
def submits (clock : Nat → UInt64) (category : Drop.Category)
    (values : List (BucketKey × Value Float)) : List Effect :=
  values.zipIdx.map fun (x, n) => submit (clock n) category x.1 x.2

theorem mergeAll_eq (clock : Nat → UInt64) (category : Drop.Category)
    (values : List (BucketKey × Value Float)) (p : Progress) :
    mergeAll clock category values p = applyAll p (submits clock category values) := by
  rw [applyAll, submits, List.foldl_map]
  rfl

theorem forall_mem_submits {P : Effect → Prop} {clock : Nat → UInt64} {category : Drop.Category}
    {values : List (BucketKey × Value Float)} (h : ∀ x ∈ values, ∀ now, P (submit now category x.1 x.2)) :
    ∀ e ∈ submits clock category values, P e := by
  intro e he
  obtain ⟨⟨x, n⟩, hx, rfl⟩ := List.mem_map.mp he
  exact h x (List.fst_mem_of_mem_zipIdx hx) (clock n)

/-- What does not read the clock sees the values only. -/
theorem filterMap_submits_eq {β : Type} {f : Effect → Option β} {g : BucketKey × Value Float → Option β}
    {category : Drop.Category} (h : ∀ now x, f (submit now category x.1 x.2) = g x)
    (clock : Nat → UInt64) (values : List (BucketKey × Value Float)) :
    (submits clock category values).filterMap f = values.filterMap g := by
  calc (submits clock category values).filterMap f
      = values.zipIdx.filterMap (g ∘ Prod.fst) := by
        rw [submits, List.filterMap_map]
        exact List.filterMap_congr fun x _ => h (clock x.2) x.1
    _ = values.filterMap g := by rw [← List.filterMap_map, List.zipIdx_map_fst]

/-- What the aggregator is asked for. -/
def request? : Effect → Option (Aggregator.Request Float)
  | submit now _ key value => some (.merge now key value)
  | record _ | dropItem _ | extract _ | forward _ => none

end Effect

open Effect (applyAll submits)

/-! ## Items -/

/-- The points of an extraction, which passes its item on. -/
def extracted (clock : Nat → UInt64) (category : Drop.Category) (scope : Scope)
    (r : Extraction.Result) : List Effect :=
  .extract r.points.length :: submits clock category (r.points.map (submission scope)) ++ [.forward r]

theorem forward_mergeExtracted (clock : Nat → UInt64) (category : Drop.Category) (scope : Scope)
    (r : Extraction.Result) (p : Progress) :
    forward r (mergeExtracted clock category scope r.points p) =
      applyAll p (extracted clock category scope r) := by
  rw [extracted, Effect.applyAll_append, mergeExtracted, mergePoints, Effect.mergeAll_eq]
  rfl

def metricsEffects (clock : Nat → UInt64) (receivedAt : UInt64) (scope : Scope) (payload : Bytes) :
    List Effect :=
  ((Line.faults payload receivedAt).map fun (n, fault) =>
    .record ⟨.invalidMetric, .metric, scope, 1, lineDetail n fault⟩) ++
      submits clock .metric ((Line.points payload receivedAt).map (submission scope))

def bucketsEffects (clock : Nat → UInt64) (scope : Scope) (payload : Bytes) : List Effect :=
  match Wire.readAll? payload scope with
  | none => [.dropItem ⟨.invalidPayload, .metric, scope, 1, Wire.notBatch⟩]
  | some results =>
    ((Wire.faults results).map fun fault =>
      .record ⟨.invalidMetric, .metric, scope, 1, fault.message⟩) ++
        submits clock .metric ((Wire.buckets results).map fun b => (b.key, b.value))

def sessionEffects (clock : Nat → UInt64) (sdk : Option Bytes) (project : Project) (item : Item) :
    List Effect :=
  match object? item.payload with
  | none => [.dropItem ⟨.invalidPayload, .session, project.scope, 1,
      ascii "session is not a JSON object"⟩]
  | some value =>
    extracted clock .session project.scope (Extraction.session sdk project.config item value)

def transactionEffects (clock : Nat → UInt64) (project : Project) (item : Item) :
    Except Extraction.EncodingError (List Effect) :=
  match object? item.payload with
  | none => .ok [.dropItem ⟨.invalidPayload, .transaction, project.scope, 1,
      ascii "event is not a JSON object"⟩]
  | some event => match unwanted? project.config event with
    | some (reason, detail) => .ok [.dropItem ⟨reason, .transaction, project.scope, 1, detail⟩]
    | none => (Extraction.transaction project.config item event).map
        (extracted clock .transaction project.scope)

def itemEffects (clock : Nat → UInt64) (envelope : Envelope) (project : Project) (i : Item) :
    Except Extraction.EncodingError (List Effect) :=
  match i.kind with
  | .metrics => .ok (metricsEffects clock envelope.receivedAt project.scope i.payload)
  | .buckets => .ok (bucketsEffects clock project.scope i.payload)
  | .session => .ok (sessionEffects clock envelope.sdk project i)
  | .transaction => transactionEffects clock project i

section Items

variable (clock : Nat → UInt64)

theorem metrics_eq (receivedAt : UInt64) (scope : Scope) (payload : Bytes) (p : Progress) :
    metrics clock receivedAt scope payload p =
      applyAll p (metricsEffects clock receivedAt scope payload) := by
  rw [metricsEffects, Effect.applyAll_append, ← Effect.mergeAll_eq, applyAll, List.foldl_map]
  rfl

theorem buckets_eq (scope : Scope) (payload : Bytes) (p : Progress) :
    buckets clock scope payload p = applyAll p (bucketsEffects clock scope payload) := by
  unfold buckets bucketsEffects
  cases Wire.readAll? payload scope with
  | none => rfl
  | some results =>
    rw [Effect.applyAll_append, ← Effect.mergeAll_eq, applyAll, List.foldl_map]
    rfl

theorem session_eq (sdk : Option Bytes) (project : Project) (i : Item) (p : Progress) :
    session clock sdk project i p = applyAll p (sessionEffects clock sdk project i) := by
  unfold session sessionEffects
  cases object? i.payload with
  | none => rfl
  | some value => exact forward_mergeExtracted ..

theorem transaction_eq (project : Project) (i : Item) (p : Progress) :
    transaction clock project i p = (transactionEffects clock project i).map (applyAll p) := by
  unfold transaction transactionEffects
  cases object? i.payload with
  | none => rfl
  | some event =>
    dsimp only
    cases unwanted? project.config event with
    | some why => rfl
    | none =>
      cases Extraction.transaction project.config i event with
      | error e => rfl
      | ok r => exact congrArg Except.ok (forward_mergeExtracted ..)

/-- **An item has the same effects whatever the state of the intake.** -/
theorem item_eq (envelope : Envelope) (project : Project) (p : Progress) (i : Item) :
    item clock envelope project p i = (itemEffects clock envelope project i).map (applyAll p) := by
  unfold item itemEffects
  cases i.kind with
  | metrics => exact congrArg Except.ok (metrics_eq ..)
  | buckets => exact congrArg Except.ok (buckets_eq ..)
  | session => exact congrArg Except.ok (session_eq ..)
  | transaction => exact transaction_eq ..

end Items

/-! ## Envelopes -/

/-- The items are taken in one by one until one of them fails.  Each has its number, by which it finds its
clock readings. -/
def takeItems (clock : Clock) (envelope : Envelope) (project : Project) (p : Progress) :
    List (Item × Nat) → Progress
  | [] => p
  | (i, n) :: rest => match item (clock n) envelope project p i with
    | .ok q => takeItems clock envelope project q rest
    | .error _ => p

/-- The intake after an envelope.  When an item fails, what the items before it did stays. -/
def takeIn (phase : Phase) (clock : Clock) (envelope : Envelope) (project : Project) (s : Intake) :
    Intake :=
  match s.process phase clock envelope project with
  | .ok p => p.1
  | .error _ =>
    (takeItems clock envelope project
      ({ s with envelopes := s.envelopes + 1 }, { accepted := true }) envelope.items.zipIdx).1

/-- The effects of the items in front of the first one that fails. -/
def effects (clock : Clock) (envelope : Envelope) (project : Project) : List (Item × Nat) → List Effect
  | [] => []
  | (i, n) :: rest => match itemEffects (clock n) envelope project i with
    | .ok es => es ++ effects clock envelope project rest
    | .error _ => []

/-- What holds of the effects of every item holds of all effects. -/
theorem forall_mem_effects {P : Effect → Prop} {clock : Clock} {envelope : Envelope} {project : Project}
    {items : List (Item × Nat)}
    (h : ∀ x ∈ items, ∀ es, itemEffects (clock x.2) envelope project x.1 = .ok es → ∀ e ∈ es, P e) :
    ∀ e ∈ effects clock envelope project items, P e := by
  induction items with
  | nil => exact List.forall_mem_nil _
  | cons x rest ih =>
    obtain ⟨i, n⟩ := x
    obtain ⟨hitem, hrest⟩ := List.forall_mem_cons.mp h
    rw [effects]
    split
    · next es hes =>
      intro e he
      rcases List.mem_append.mp he with he | he
      · exact hitem es hes e he
      · exact ih hrest e he
    · exact List.forall_mem_nil _

theorem takeItems_eq (clock : Clock) (envelope : Envelope) (project : Project) (p : Progress)
    (items : List (Item × Nat)) :
    takeItems clock envelope project p items = applyAll p (effects clock envelope project items) := by
  induction items generalizing p with
  | nil => rfl
  | cons x rest ih =>
    obtain ⟨i, n⟩ := x
    rw [takeItems, effects, item_eq]
    cases itemEffects (clock n) envelope project i with
    | error e => rfl
    | ok es =>
      rw [Effect.applyAll_append]
      exact ih _

/-- Items none of which fails are taken in one by one. -/
theorem takeItems_of_foldlM {clock : Clock} {envelope : Envelope} {project : Project} {p q : Progress}
    {items : List (Item × Nat)}
    (h : items.foldlM (fun p e => item (clock e.2) envelope project p e.1) p = .ok q) :
    takeItems clock envelope project p items = q := by
  induction items generalizing p with
  | nil =>
    cases h
    rfl
  | cons x rest ih =>
    rw [List.foldlM_cons] at h
    obtain ⟨p', hp', h⟩ := bind_eq_ok.mp h
    simp only [takeItems, hp']
    exact ih h

/-- **An envelope that is not refused as a whole has the effects of its items**, whatever the state of
the intake. -/
theorem takeIn_eq (phase : Phase) (clock : Clock) (envelope : Envelope) (project : Project)
    (s : Intake) : s.takeIn phase clock envelope project =
      if phase ≠ .running ∨ project.disabled then
        { s with envelopes := s.envelopes + 1, rejected := s.rejected + 1 }
      else (applyAll ({ s with envelopes := s.envelopes + 1 }, { accepted := true })
        (effects clock envelope project envelope.items.zipIdx)).1 := by
  rw [← takeItems_eq]
  unfold takeIn process
  dsimp only
  by_cases hrefused : phase ≠ .running ∨ project.disabled
  · rw [if_pos hrefused, if_pos hrefused]
  · rw [if_neg hrefused, if_neg hrefused]
    split
    · next h => rw [takeItems_of_foldlM h]
    · rfl

/-! ## Canonical effects -/

/-- What an effect submits is canonical, and no drop says otherwise. -/
def Effect.Canonical : Effect → Prop
  | submit _ _ key value => Telemetry.Canonical key.name key.tags value.kind
  | record d | dropItem d => d.reason ≠ .typeMismatch
  | extract _ | forward _ => True

section Canonical

variable (clock : Nat → UInt64)

theorem canonical_points {category : Drop.Category} {scope : Scope} {points : List (Point Float)}
    (h : ∀ p ∈ points, p.Canonical) :
    ∀ e ∈ submits clock category (points.map (submission scope)), e.Canonical := by
  apply Effect.forall_mem_submits
  intro x hx _
  obtain ⟨p, hp, rfl⟩ := List.mem_map.mp hx
  exact h p hp

theorem canonical_extracted {category : Drop.Category} {scope : Scope} {r : Extraction.Result}
    (h : ∀ p ∈ r.points, p.Canonical) : ∀ e ∈ extracted clock category scope r, e.Canonical := by
  intro e he
  rcases List.mem_append.mp he with he | he
  · rcases List.mem_cons.mp he with rfl | he
    · trivial
    · exact canonical_points clock h e he
  · obtain rfl := List.mem_singleton.mp he
    trivial

theorem canonical_metricsEffects (receivedAt : UInt64) (scope : Scope) (payload : Bytes) :
    ∀ e ∈ metricsEffects clock receivedAt scope payload, e.Canonical := by
  intro e he
  rcases List.mem_append.mp he with he | he
  · obtain ⟨⟨n, fault⟩, -, rfl⟩ := List.mem_map.mp he
    exact Drop.Reason.noConfusion
  · apply canonical_points clock _ e he
    intro p hp
    exact Line.canonical_of_mem_points hp

theorem canonical_bucketsEffects (scope : Scope) (payload : Bytes) :
    ∀ e ∈ bucketsEffects clock scope payload, e.Canonical := by
  intro e he
  unfold bucketsEffects at he
  split at he
  · obtain rfl := List.mem_singleton.mp he
    exact Drop.Reason.noConfusion
  · next results hread =>
    rcases List.mem_append.mp he with he | he
    · obtain ⟨fault, -, rfl⟩ := List.mem_map.mp he
      exact Drop.Reason.noConfusion
    · refine Effect.forall_mem_submits (fun x hx _ => ?_) e he
      obtain ⟨b, hb, rfl⟩ := List.mem_map.mp hx
      exact (Wire.canonical_of_readAll? hread b hb).1

theorem canonical_sessionEffects (sdk : Option Bytes) (project : Project) (i : Item) :
    ∀ e ∈ sessionEffects clock sdk project i, e.Canonical := by
  unfold sessionEffects
  split
  · apply (List.forall_mem_singleton (p := Effect.Canonical)).mpr
    exact Drop.Reason.noConfusion
  · next value _ =>
    exact canonical_extracted clock (Extraction.canonical_of_session sdk project.config i value)

theorem reason_of_unwanted? {config : Config} {event : Json} {reason : Drop.Reason} {detail : Bytes}
    (h : unwanted? config event = some (reason, detail)) : reason ≠ .typeMismatch := by
  unfold unwanted? at h
  split at h
  · cases h
    exact Drop.Reason.noConfusion
  · dsimp only at h
    split at h
    · cases h
    · cases h
      exact Drop.Reason.noConfusion

theorem canonical_transactionEffects {project : Project} {i : Item} {es : List Effect}
    (h : transactionEffects clock project i = .ok es) : ∀ e ∈ es, e.Canonical := by
  unfold transactionEffects at h
  split at h
  · cases h
    apply (List.forall_mem_singleton (p := Effect.Canonical)).mpr
    exact Drop.Reason.noConfusion
  · split at h
    · next hunwanted =>
      cases h
      apply (List.forall_mem_singleton (p := Effect.Canonical)).mpr
      exact reason_of_unwanted? hunwanted
    · cases hr : Extraction.transaction project.config i _ with
      | error e =>
        rw [hr] at h
        cases h
      | ok r =>
        rw [hr] at h
        cases h
        exact canonical_extracted clock (Extraction.canonical_of_transaction hr)

theorem canonical_itemEffects {envelope : Envelope} {project : Project} {i : Item} {es : List Effect}
    (h : itemEffects clock envelope project i = .ok es) : ∀ e ∈ es, e.Canonical := by
  unfold itemEffects at h
  split at h
  · cases h
    exact canonical_metricsEffects clock envelope.receivedAt project.scope i.payload
  · cases h
    exact canonical_bucketsEffects clock project.scope i.payload
  · cases h
    exact canonical_sessionEffects clock envelope.sdk project i
  · exact canonical_transactionEffects clock h

end Canonical

/-- **Whatever an envelope submits is canonical.** -/
theorem canonical_effects (clock : Clock) (envelope : Envelope) (project : Project)
    (items : List (Item × Nat)) : ∀ e ∈ effects clock envelope project items, e.Canonical :=
  forall_mem_effects fun x _ _ hes => canonical_itemEffects (clock x.2) hes

end Telemetry.Intake

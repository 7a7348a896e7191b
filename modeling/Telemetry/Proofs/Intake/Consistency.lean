import Telemetry.Proofs.Aggregator.Invariant
import Telemetry.Proofs.Intake.Effects

/-!
# Names and values agree

Whatever envelopes are taken in and whenever buckets leave in between, a stored bucket has a name of
the kind of its value, valid tag keys and a time at the start of a slot, so no merge is refused for its
kind and no drop says so (`actAll_consistent`).  The names come from four places that check them in
different ways; what they have in common is `Canonical`.
-/

namespace Telemetry

/-! ## Slots -/

namespace Aggregator

/-- The start of a slot is a multiple of the interval. -/
theorem Settings.dvd_truncate (s : Settings) (timestamp : UInt64) :
    s.interval.toNat ∣ (s.truncate timestamp).toNat := by
  rw [s.toNat_truncate]
  exact Nat.dvd_mul_right _ _

/-- A canonical bucket at the start of a slot. -/
def Proper (s : Settings) (k : BucketKey) (v : Value Float) : Prop :=
  Telemetry.Canonical k.name k.tags v.kind ∧ s.interval.toNat ∣ k.timestamp.toNat

theorem proper_slot {s : Settings} {k : BucketKey} {v : Value Float}
    (h : Telemetry.Canonical k.name k.tags v.kind) : Proper s (s.slot k) v :=
  ⟨h, s.dvd_truncate k.timestamp⟩

theorem mergeClosed_proper (s : Settings) : MergeClosed (Proper s) := by
  rintro k v w u ⟨hv, hslot⟩ - hu
  refine ⟨?_, hslot⟩
  rwa [Value.kind_merge? hu]

theorem kind_of_proper (s : Settings) (k : BucketKey) (v w : Value Float) (hv : Proper s k v)
    (hw : Proper s k w) : v.kind = w.kind :=
  hv.1.named.kind_unique hw.1.named

end Aggregator

/-! ## Logs -/

/-- No drop was recorded for a mismatch of kinds. -/
structure DropLog.Matching (log : DropLog) : Prop where
  counted : log.counts.get .typeMismatch = 0
  recent : ∀ d ∈ log.recent, d.reason ≠ .typeMismatch

theorem DropLog.Matching.record {log : DropLog} (h : log.Matching) {d : Drop}
    (hd : d.reason ≠ .typeMismatch) : (log.record d).Matching := by
  constructor
  · rw [DropLog.record, DropCounts.get_add, if_neg hd.symm, h.counted]
  · intro d' hd'
    rcases List.mem_cons.mp (List.mem_of_mem_take hd') with rfl | hd'
    · exact hd
    · exact h.recent d' hd'

namespace Intake

/-! ## Runs -/

/-- What can happen to the buckets of a relay. -/
inductive Action where
  | takeIn (phase : Phase) (clock : Clock) (envelope : Envelope) (project : Project)
  | drainDue (now : UInt64)
  | drainAll

def act (s : Intake) : Action → Intake
  | .takeIn phase clock envelope project => s.takeIn phase clock envelope project
  | .drainDue now => { s with aggregator := (s.aggregator.drainDue now).2 }
  | .drainAll => { s with aggregator := s.aggregator.drainAll.2 }

def actAll (s : Intake) (actions : List Action) : Intake := actions.foldl act s

/-- What an action asks the aggregator for. -/
def Action.requests : Action → List (Aggregator.Request Float)
  | .takeIn phase clock envelope project =>
    if phase ≠ .running ∨ project.disabled then []
    else (effects clock envelope project envelope.items.zipIdx).filterMap Effect.request?
  | .drainDue now => [.drainDue now]
  | .drainAll => [.drainAll]

theorem aggregator_merge (now : UInt64) (category : Drop.Category) (k : BucketKey) (v : Value Float)
    (p : Progress) :
    (merge now category k v p).1.aggregator = (p.1.aggregator.merge now k v).2 := by
  unfold merge
  dsimp only
  split <;> rfl

theorem aggregator_applyAll (p : Progress) (es : List Effect) :
    (Effect.applyAll p es).1.aggregator =
      (p.1.aggregator.run (es.filterMap Effect.request?)).2 := by
  induction es generalizing p with
  | nil => rfl
  | cons e rest ih =>
    change (Effect.applyAll (e.apply p) rest).1.aggregator = _
    rw [ih]
    cases e with
    | submit now category k v =>
      change ((merge now category k v p).1.aggregator.run _).2 = _
      rw [aggregator_merge]
      rfl
    | record d | dropItem d | extract n | forward r => rfl

theorem aggregator_act (s : Intake) (action : Action) :
    (s.act action).aggregator = (s.aggregator.run action.requests).2 := by
  cases action with
  | takeIn phase clock envelope project =>
    change (s.takeIn phase clock envelope project).aggregator = _
    rw [takeIn_eq, Action.requests]
    split
    · rfl
    · exact aggregator_applyAll ..
  | drainDue now => rfl
  | drainAll => rfl

/-- **The buckets of a relay are those of a run of its aggregator.** -/
theorem aggregator_actAll (s : Intake) (actions : List Action) :
    (s.actAll actions).aggregator = (s.aggregator.run (actions.flatMap Action.requests)).2 := by
  induction actions generalizing s with
  | nil => rfl
  | cons action rest ih =>
    change ((s.act action).actAll rest).aggregator = _
    rw [ih, aggregator_act, List.flatMap_cons, Aggregator.run_append]

/-! ## What is kept -/

open Aggregator (Proper Holds WF)

theorem Action.requests_obey (settings : Aggregator.Settings) (action : Action) :
    ∀ r ∈ action.requests, r.Obeys (Proper settings) settings := by
  intro r hr
  cases action with
  | takeIn phase clock envelope project =>
    rw [Action.requests] at hr
    split at hr
    · cases hr
    · obtain ⟨e, he, hr⟩ := List.mem_filterMap.mp hr
      have hcanonical := canonical_effects clock envelope project _ e he
      cases e with
      | submit now category key value =>
        obtain rfl := Option.some.inj hr
        intro k v hkv
        obtain ⟨rfl, rfl⟩ := Prod.mk.inj (Option.some.inj hkv)
        exact Aggregator.proper_slot hcanonical
      | record d | dropItem d | extract n | forward r => cases hr
  | drainDue now =>
    obtain rfl := List.mem_singleton.mp hr
    exact fun k v hkv => nomatch hkv
  | drainAll =>
    obtain rfl := List.mem_singleton.mp hr
    exact fun k v hkv => nomatch hkv

/-- What every step keeps: proper buckets, and a log without mismatches. -/
structure Sound (s : Intake) : Prop where
  wf : WF s.aggregator
  holds : Holds (Proper s.aggregator.settings) s.aggregator
  log : s.log.Matching

variable {s : Intake}

theorem Sound.merge {p : Progress} (h : Sound p.1) (now : UInt64) (category : Drop.Category) {k : BucketKey}
    {v : Value Float} (hv : Telemetry.Canonical k.name k.tags v.kind) :
    Sound (merge now category k v p).1 := by
  have hobeys : (Aggregator.Request.merge now k v).Obeys (Proper p.1.aggregator.settings)
      p.1.aggregator.settings := by
    intro k' v' hkv
    obtain ⟨rfl, rfl⟩ := Prod.mk.inj (Option.some.inj hkv)
    exact Aggregator.proper_slot hv
  have hwf := h.wf.serve (.merge now k v)
  have hholds := (h.holds.serve (Aggregator.mergeClosed_proper _) h.wf hobeys).1
  have hmatch := h.holds.serve_ne_typeMismatch (Aggregator.kind_of_proper _) h.wf hobeys
  rw [← Aggregator.settings_serve p.1.aggregator (.merge now k v)] at hholds
  change WF (p.1.aggregator.merge now k v).2 at hwf
  change Holds (Proper (p.1.aggregator.merge now k v).2.settings) _ at hholds
  change Aggregator.Answer.outcome (p.1.aggregator.merge now k v).1 ≠ _ at hmatch
  unfold Intake.merge
  dsimp only
  split
  · exact ⟨hwf, hholds, h.log⟩
  · next reason hreason =>
    refine ⟨hwf, hholds, h.log.record ?_⟩
    -- only a merge refused for its kind is recorded under that reason
    intro hd
    apply hmatch
    rw [show reason = .typeMismatch from hd] at hreason
    cases ho : (p.1.aggregator.merge now k v).1 <;> rw [ho] at hreason <;> cases hreason

theorem Sound.record {p : Progress} (h : Sound p.1) {d : Drop} (hd : d.reason ≠ .typeMismatch) :
    Sound (record d p).1 :=
  ⟨h.wf, h.holds, h.log.record hd⟩

theorem Sound.apply {p : Progress} (h : Sound p.1) {e : Effect} (he : e.Canonical) :
    Sound (e.apply p).1 := by
  cases e with
  | submit now category key value => exact h.merge now category he
  | record d | dropItem d => exact Sound.record (p := (p.1, _)) h he
  | extract n | forward r => exact ⟨h.wf, h.holds, h.log⟩

theorem Sound.applyAll {p : Progress} (h : Sound p.1) {es : List Effect}
    (hes : ∀ e ∈ es, e.Canonical) : Sound (Effect.applyAll p es).1 := by
  induction es generalizing p with
  | nil => exact h
  | cons e rest ih =>
    apply ih (h.apply (hes e List.mem_cons_self))
    intro e' he'
    exact hes e' (List.mem_cons_of_mem _ he')

theorem Sound.drain (h : Sound s) (leaves : Aggregator.Stored Float → Bool) :
    Sound { s with aggregator := (s.aggregator.drain leaves).2 } :=
  ⟨h.wf.drain leaves, h.holds.drain leaves, h.log⟩

/-- **One action keeps the buckets proper and the log without mismatches.** -/
theorem Sound.act (h : Sound s) (action : Action) : Sound (s.act action) := by
  cases action with
  | takeIn phase clock envelope project =>
    change Sound (s.takeIn phase clock envelope project)
    rw [takeIn_eq]
    split
    · exact ⟨h.wf, h.holds, h.log⟩
    · apply Sound.applyAll _ (canonical_effects clock envelope project envelope.items.zipIdx)
      exact ⟨h.wf, h.holds, h.log⟩
  | drainDue now => exact h.drain _
  | drainAll => exact h.drain _

theorem Sound.actAll (h : Sound s) (actions : List Action) : Sound (s.actAll actions) := by
  induction actions generalizing s with
  | nil => exact h
  | cons action rest ih => exact ih (h.act action)

/-- Names and values agree in the stored buckets, in the answers that the aggregator gave, and in the
log. -/
structure Consistent (settings : Aggregator.Settings) (history : Aggregator.History Float)
    (s : Intake) : Prop where
  /-- A name is read, written as it was, and of the kind of the value. -/
  named : ∀ b ∈ s.aggregator.stored,
    ∃ m, Identifier.parse? b.key.name = some m ∧ m.text = b.key.name ∧ m.kind = b.value.kind
  tagged : ∀ b ∈ s.aggregator.stored, ∀ t ∈ b.key.tags, Identifier.validTagKey t.1 = true
  slotted : ∀ b ∈ s.aggregator.stored, settings.interval.toNat ∣ b.key.timestamp.toNat
  merged : ∀ e ∈ history, e.2 ≠ .outcome .typeMismatch
  counted : s.log.counts.get .typeMismatch = 0
  recorded : ∀ d ∈ s.log.recent, d.reason ≠ .typeMismatch

/-- **Names and values never disagree**, whatever envelopes are taken in for whatever projects and
whenever buckets leave in between.  The buckets are those of a run of the aggregator, and no answer in
the history of that run is a mismatch of kinds. -/
theorem actAll_consistent (settings : Aggregator.Settings) (shards : Nat) (actions : List Action) :
    let s := actAll { aggregator := .empty settings shards } actions
    let run := (Aggregator.empty settings shards).run (actions.flatMap Action.requests)
    s.aggregator = run.2 ∧ Consistent settings run.1 s := by
  intro s run
  have hwf : WF (Aggregator.empty settings shards : Aggregator Float) := .empty settings shards
  have hholds : Holds (Proper settings) (Aggregator.empty settings shards) :=
    Aggregator.holds_empty settings shards
  have hrun : s.aggregator = run.2 := aggregator_actAll _ actions
  have hobeys : ∀ r ∈ actions.flatMap Action.requests, r.Obeys (Proper settings) settings := by
    intro r hr
    obtain ⟨action, -, hr⟩ := List.mem_flatMap.mp hr
    exact action.requests_obey settings r hr
  have hsound : Sound s := by
    apply Sound.actAll
    exact ⟨hwf, hholds, ⟨rfl, List.forall_mem_nil _⟩⟩
  have hsettings : s.aggregator.settings = settings := by
    rw [hrun]
    exact Aggregator.settings_run ..
  have hstored : Holds (Proper settings) s.aggregator := by
    have hproper := hsound.holds
    rwa [hsettings] at hproper
  refine ⟨hrun, ?_⟩
  exact {
    named := fun b hb => (hstored b hb).1.named
    tagged := fun b hb => (hstored b hb).1.tags.keys
    slotted := fun b hb => (hstored b hb).2
    merged := Aggregator.run_ne_typeMismatch (Aggregator.kind_of_proper settings)
      (Aggregator.mergeClosed_proper settings) hholds hwf hobeys
    counted := hsound.log.counted
    recorded := hsound.log.recent }

end Intake

end Telemetry

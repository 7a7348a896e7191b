import Telemetry.Proofs.Aggregator.Grouping
import Telemetry.Proofs.Aggregator.Invariant
import Telemetry.Proofs.Bucket.Wire
import Telemetry.Proofs.Metric.Sources

/-!
# A relay before a relay

The lines of a project reach a relay in two ways: directly, or through a lower relay with shorter
slots, which they leave in any number of batches.  What either store keeps of them is the same
(`Routes.cascade_agrees`).  A slot of a slot is the slot of the time itself, a batch arrives as it was
sent, and for each key of the upper relay all that was merged on the way is what was submitted to it.
-/

namespace Telemetry

open Bytes Value

/-- A value is finite if what it keeps as it came is finite, and so are its sums. -/
theorem Value.finite_iff {v : Value Float} : v.Finite ↔
    (∀ x ∈ v.kept, Binary64.isFinite x = true) ∧ ∀ x ∈ v.totals, Binary64.isFinite x = true := by
  cases v <;> simp [Value.Finite, numbers, kept, totals, and_assoc]

namespace Aggregator

/-! ## Slots of slots -/

/-- **The slot of a shorter slot is the slot.** -/
theorem Settings.slot_slot {lower upper : Settings}
    (h : lower.interval.toNat ∣ upper.interval.toNat) (k : BucketKey) :
    upper.slot (lower.slot k) = upper.slot k := by
  have htruncate : upper.truncate (lower.truncate k.timestamp) = upper.truncate k.timestamp := by
    rw [← UInt64.toNat_inj, toNat_truncate, toNat_truncate, toNat_truncate]
    obtain ⟨n, hn⟩ := h
    rw [hn]
    rcases Nat.eq_zero_or_pos lower.interval.toNat with hzero | hpos
    · rw [hzero, Nat.zero_mul, Nat.zero_mul, Nat.zero_mul]
    · rw [Nat.mul_div_mul_left _ _ hpos, Nat.div_div_eq_div_mul]
  rw [slot, slot, slot, htruncate]

/-! ## Lines and relays -/

/-- A line that was received and could be read. -/
structure Submission where
  line : Bytes
  receivedAt : UInt64
  point : Point Float
  parsed : Line.parse line receivedAt = .ok point

namespace Submission

def of (line : Bytes) (receivedAt : UInt64)
    (h : (Line.parse line receivedAt).toOption.isSome = true) : Submission :=
  ⟨line, receivedAt, _, toOption_eq_some.mp (Option.some_get h).symm⟩

def key (scope : Scope) (s : Submission) : BucketKey :=
  ⟨scope, s.point.name, s.point.tags, s.point.timestamp⟩

/-- What the value of the line is merged from. -/
def sources (s : Submission) : Multiset (Value Float) :=
  Line.sources s.point.value (Line.numbers s.line)

def summands (s : Submission) : Multiset Float :=
  Line.summands s.point.value (Line.numbers s.line)

end Submission

/-- What happens at the lower relay. -/
inductive Step where
  | submit (now : UInt64) (s : Submission)
  | drainDue (now : UInt64)
  | drainAll

def Step.request (scope : Scope) : Step → Request Float
  | submit now s => .mergePoint now scope s.point
  | drainDue now => .drainDue now
  | drainAll => .drainAll

def Step.submission? : Step → Option Submission
  | submit _ s => some s
  | drainDue _ | drainAll => none

def Answer.batch? {ν : Type} : Answer ν → Option (List (Bucket ν))
  | .buckets bs => some bs
  | .outcome _ | .count _ | .closed => none

/-- The lines of a project on two ways: through a lower relay to an upper one, and directly to a
third. -/
structure Routes where
  scope : Scope
  steps : List Step
  lower : Settings
  lowerShards : Nat
  /-- Whether batches are written with their scope. -/
  withScope : Bool
  upper : Settings
  upperShards : Nat
  /-- The time of each merge at the upper relay. -/
  upperClock : Nat → UInt64
  direct : Settings
  directShards : Nat
  directClock : Nat → UInt64

namespace Routes

variable (r : Routes)

def submissions : List Submission := r.steps.filterMap Step.submission?

def lowerRun : History Float × Aggregator Float :=
  (empty r.lower r.lowerShards).run (r.steps.map (Step.request r.scope))

/-- What leaves the lower relay. -/
def batches : List (List (Bucket Float)) := r.lowerRun.1.filterMap fun e => e.2.batch?

/-- What is read of a batch that was written. -/
def delivered (batch : List (Bucket Float)) : List (Bucket Float) :=
  ((Wire.write? r.withScope batch).bind fun text => Wire.readAll? text r.scope).elim [] Wire.buckets

/-- What reaches the upper relay. -/
def arrivals : List (Bucket Float) := r.batches.flatMap r.delivered

def upperRun : History Float × Aggregator Float :=
  (empty r.upper r.upperShards).run (r.arrivals.mapIdx fun i b => .mergeBucket (r.upperClock i) b)

def directRun : History Float × Aggregator Float :=
  (empty r.direct r.directShards).run
    (r.submissions.mapIdx fun i s => .mergePoint (r.directClock i) r.scope s.point)

/-- The lines whose values belong to a key of the upper relay. -/
def linesOf (k : BucketKey) : List Submission :=
  r.submissions.filter fun s => r.upper.slot (s.key r.scope) = k

/-- The numbers that are added up under a key. -/
def summands (k : BucketKey) : Multiset Float :=
  (r.linesOf k : Multiset Submission).bind Submission.summands

structure Proper : Prop where
  divides : r.lower.interval.toNat ∣ r.upper.interval.toNat
  interval : r.direct.interval = r.upper.interval
  textual : ∀ s ∈ r.submissions, s.point.tags.Textual
  /-- All values can be counted. -/
  words : (r.submissions.map fun s => (Line.parts s.line).length).sum < UInt64.size
  /-- No total that leaves the lower relay has become infinite. -/
  totals : ∀ batch ∈ r.batches, ∀ b ∈ batch, ∀ x ∈ b.value.totals, Binary64.isFinite x = true
  emptied : r.lowerRun.2.stored = []
  lower_ok : ∀ e ∈ r.lowerRun.1, e.2.Accepting
  upper_ok : ∀ e ∈ r.upperRun.1, e.2.Accepting
  direct_ok : ∀ e ∈ r.directRun.1, e.2.Accepting

structure Agree : Prop where
  /-- Every batch is written, and read without a fault as it was. -/
  sent : ∀ batch ∈ r.batches, ∃ text, Wire.write? r.withScope batch = some text ∧
    Wire.readAll? text r.scope = some (batch.map .ok)
  keys : (r.upperRun.2.stored.map Stored.key).Perm (r.directRun.2.stored.map Stored.key)
  values : ∀ x ∈ r.upperRun.2.stored, ∀ y ∈ r.directRun.2.stored, x.key = y.key →
    Agrees (r.summands x.key) x.value y.value

end Routes

/-! ## Batches -/

/-- What a bucket of the lower relay needs to be sent and read, but for its totals. -/
def Fit (scope : Scope) (k : BucketKey) (v : Value Float) : Prop :=
  k.scope = scope ∧ Telemetry.Canonical k.name k.tags v.kind ∧ k.tags.Textual ∧
    ∀ x ∈ v.kept, Binary64.isFinite x = true

theorem mergeClosed_fit (scope : Scope) : MergeClosed (Fit scope) := by
  rintro k v w u ⟨hscope, hcanonical, htextual, hv⟩ ⟨-, -, -, hw⟩ hmerge
  refine ⟨hscope, ?_, htextual, ?_⟩
  · rwa [Value.kind_merge? hmerge]
  · intro x hx
    rcases mem_kept_merge? hmerge hx with hx | hx
    · exact hv x hx
    · exact hw x hx

theorem Step.obeys {scope : Scope} {step : Step}
    (h : ∀ s, step.submission? = some s → s.point.tags.Textual) (settings : Settings) :
    (step.request scope).Obeys (Fit scope) settings := by
  cases step with
  | submit now s =>
    rintro k v ⟨⟩
    refine ⟨rfl, Line.canonical_of_parse s.parsed, h s rfl, ?_⟩
    intro x hx
    exact Line.isFinite_of_mem_numbers (Line.mem_numbers_of_mem_kept s.parsed hx)
  | drainDue | drainAll => rintro k v ⟨⟩

/-- What a run returned from a class is what the batches hold of it. -/
theorem sum_returned (C : BucketKey → Bool) (h : History Float) :
    (h.map fun e => e.2.returned C).sum =
      (((h.filterMap fun e => e.2.batch?).flatten.filter fun b => C b.key).map Bucket.value :
        List (Value Float)) := by
  induction h with
  | nil => rfl
  | cons e rest ih =>
    obtain ⟨request, answer⟩ := e
    rw [List.map_cons, List.sum_cons, ih]
    cases answer with
    | buckets bs =>
      rw [List.filterMap_cons]
      simp [Answer.returned, Answer.batch?]
    | outcome | count | closed =>
      rw [List.filterMap_cons, Answer.returned, zero_add]
      rfl

theorem sum_submitted (scope : Scope) (C : BucketKey → Bool) (settings : Settings)
    (steps : List Step) :
    ((steps.map (Step.request scope)).map (Request.submitted C settings)).sum =
      (((steps.filterMap Step.submission?).filter fun s => C (settings.slot (s.key scope))).map
        fun s => s.point.value : List (Value Float)) := by
  induction steps with
  | nil => rfl
  | cons step rest ih =>
    rw [List.map_cons, List.map_cons, List.sum_cons, ih]
    cases step with
    | submit now s =>
      have hsubmitted : (Request.mergePoint now scope s.point).submitted C settings =
          if C (settings.slot (s.key scope)) then {s.point.value} else 0 := rfl
      rw [List.filterMap_cons, Step.request, hsubmitted]
      dsimp only [Step.submission?]
      rw [List.filter_cons]
      by_cases hs : C (settings.slot (s.key scope))
      · rw [if_pos hs, if_pos hs]
        rfl
      · rw [if_neg hs, if_neg hs, zero_add]
    | drainDue | drainAll =>
      rw [List.filterMap_cons]
      exact zero_add _

namespace Routes

variable {r : Routes}

theorem Proper.fit (h : r.Proper) {batch : List (Bucket Float)} (hbatch : batch ∈ r.batches) :
    ∀ b ∈ batch, b.Portable ∧ b.receivedFor r.scope = b := by
  have hrequests : ∀ request ∈ r.steps.map (Step.request r.scope),
      request.Obeys (Fit r.scope) (empty r.lower r.lowerShards : Aggregator Float).settings := by
    intro request hrequest
    obtain ⟨step, hstep, rfl⟩ := List.mem_map.mp hrequest
    refine Step.obeys ?_ _
    intro s hs
    exact h.textual s (List.mem_filterMap.mpr ⟨step, hstep, hs⟩)
  have hheld := (run_holds (mergeClosed_fit r.scope) (holds_empty r.lower r.lowerShards)
    (.empty r.lower r.lowerShards) hrequests).2
  intro b hb
  obtain ⟨e, he, hanswer⟩ := List.mem_filterMap.mp hbatch
  have hbuckets : e.2 = .buckets batch := by
    obtain ⟨request, answer⟩ := e
    cases answer <;> cases hanswer
    rfl
  obtain ⟨hscope, hcanonical, htextual, hkept⟩ := hheld e he batch hbuckets b hb
  refine ⟨⟨hcanonical, htextual, finite_iff.mpr ⟨hkept, h.totals batch hbatch b hb⟩⟩, ?_⟩
  rw [← hscope]
  rfl

theorem Proper.sent (h : r.Proper) {batch : List (Bucket Float)} (hbatch : batch ∈ r.batches) :
    ∃ text, Wire.write? r.withScope batch = some text ∧
      Wire.readAll? text r.scope = some (batch.map .ok) := by
  have hfit := h.fit hbatch
  have hwrite : Wire.write? r.withScope batch = some _ :=
    (Wire.write?_eq_some_iff fun b hb => (hfit b hb).1.canonical).mpr
      ⟨fun b hb => (hfit b hb).1.textual, rfl⟩
  refine ⟨_, hwrite, ?_⟩
  rw [Wire.readAll?_of_write? hwrite, Option.some_inj]
  refine List.map_congr_left fun b hb => ?_
  exact (Wire.readBucket_bucketJson (hfit b hb).1.canonical).mpr ⟨(hfit b hb).1.finite, (hfit b hb).2⟩

/-- What arrives is what left. -/
theorem Proper.arrivals_eq (h : r.Proper) : r.arrivals = r.batches.flatten := by
  have hdelivered : ∀ batch ∈ r.batches, r.delivered batch = batch := by
    intro batch hbatch
    obtain ⟨text, hwrite, hread⟩ := h.sent hbatch
    rw [delivered, hwrite, Option.bind_some, hread]
    simp [Wire.buckets, List.filterMap_map, Function.comp_def, Except.toOption]
  rw [arrivals, List.flatMap_def, List.map_congr_left hdelivered, List.map_id']

/-! ## Both ways -/

/-- The values that were submitted for a key of the upper relay. -/
def submitted (r : Routes) (k : BucketKey) : Multiset (Value Float) :=
  ((r.linesOf k).map fun s => s.point.value : List (Value Float))

/-- The values that reach the upper relay for a key. -/
def arrived (r : Routes) (k : BucketKey) : Multiset (Value Float) :=
  ((r.arrivals.filter fun b => r.upper.slot b.key = k).map Bucket.value : List (Value Float))

/-- What the values that were submitted for a key are merged from. -/
def sources (r : Routes) (k : BucketKey) : Multiset (Value Float) :=
  (r.linesOf k : Multiset Submission).bind Submission.sources

theorem sources_merges (r : Routes) (k : BucketKey) : Merges (r.sources k) (r.submitted k) := by
  unfold sources submitted
  induction r.linesOf k with
  | nil => exact .refl
  | cons s rest ih =>
    rw [← Multiset.cons_coe, Multiset.cons_bind]
    exact (Line.merges_sources s.parsed).add ih

theorem Proper.lower_merges (h : r.Proper) (k : BucketKey) :
    Merges (r.submitted k) (r.arrived k) := by
  have hmerges := run_merges (fun k' => r.upper.slot k' = k) (.empty r.lower r.lowerShards) h.lower_ok
  have hempty : contents (fun k' => r.upper.slot k' = k) r.lowerRun.2 = 0 := by
    rw [contents, h.emptied]
    rfl
  rw [sum_submitted, contents_empty, add_zero, sum_returned] at hmerges
  change Merges _ (_ + contents _ r.lowerRun.2) at hmerges
  rw [hempty, add_zero] at hmerges
  rw [arrived, h.arrivals_eq]
  refine Eq.mp (congrArg (Merges · _) ?_) hmerges
  -- the lower relay stores a line under its own slot of the key, and the upper one cuts that again
  have hslot : ∀ s : Submission, r.upper.slot (r.lower.slot (s.key r.scope)) =
      r.upper.slot (s.key r.scope) := fun s => Settings.slot_slot h.divides _
  rw [submitted, linesOf, submissions]
  congr 2
  refine List.filter_congr fun s _ => ?_
  exact congrArg (fun k' => decide (k' = k)) (hslot s)

theorem Proper.upper_merges (h : r.Proper) (k : BucketKey) :
    Merges (r.arrived k) (r.upperRun.2.held k) :=
  run_merges_submissions (fun _ _ => rfl) r.upper r.upperShards r.arrivals h.upper_ok k

theorem Proper.direct_merges (h : r.Proper) (k : BucketKey) :
    Merges (r.submitted k) (r.directRun.2.held k) := by
  have hslot : ∀ k, r.direct.slot k = r.upper.slot k := by
    intro k
    rw [Settings.slot, Settings.slot, Settings.truncate, Settings.truncate, h.interval]
  have hmerges := run_merges_submissions (fun _ _ => rfl) r.direct r.directShards r.submissions
    h.direct_ok k
  simp only [hslot] at hmerges
  exact hmerges

/-! ## What the stores say -/

theorem Proper.lossless (h : r.Proper) (k : BucketKey) : Lossless (r.sources k) := by
  refine ⟨?_, ?_⟩
  · intro v hv
    obtain ⟨s, -, hv⟩ := Multiset.mem_bind.mp hv
    exact Line.sound_of_mem_sources hv
  · rw [sources, Multiset.map_bind, Multiset.sum_bind]
    refine lt_of_le_of_lt (Multiset.sum_map_le_sum_map _ (fun s => (Line.parts s.line).length) ?_) ?_
    · intro s _
      exact (Line.sum_count_sources_le _ _).trans (Line.length_numbers_le s.line)
    · refine lt_of_le_of_lt (List.Sublist.sum_le_sum ?_ fun _ _ => Nat.zero_le _) h.words
      exact List.filter_sublist.map _

theorem bind_totals_sources (r : Routes) (k : BucketKey) :
    (r.sources k).bind totals = r.summands k := by
  rw [sources, Multiset.bind_assoc]
  exact Multiset.bind_congr fun s _ => Line.totals_sources _ _

theorem isFinite_of_mem_summands {k : BucketKey} {x : Float} (h : x ∈ r.summands k) :
    Binary64.isFinite x = true := by
  obtain ⟨s, -, hx⟩ := Multiset.mem_bind.mp h
  exact Line.isFinite_of_mem_summands hx

/-- **Two relays in a row end as one relay alone**: in stores with the same keys, where the values of a
key agree in all but the rounding of their sums. -/
theorem cascade_agrees (h : r.Proper) : r.Agree := by
  have hupper : ∀ k, Merges (r.sources k) (r.upperRun.2.held k) := by
    intro k
    exact (r.sources_merges k).trans ((h.lower_merges k).trans (h.upper_merges k))
  have hdirect : ∀ k, Merges (r.sources k) (r.directRun.2.held k) := by
    intro k
    exact (r.sources_merges k).trans (h.direct_merges k)
  have hupperWF : WF r.upperRun.2 := (WF.empty r.upper r.upperShards).run _
  have hdirectWF : WF r.directRun.2 := (WF.empty r.direct r.directShards).run _
  refine ⟨fun batch hbatch => h.sent hbatch, ?_, ?_⟩
  · rw [List.perm_ext_iff_of_nodup hupperWF.keys_nodup hdirectWF.keys_nodup]
    intro k
    rw [hupperWF.mem_keys_iff, hdirectWF.mem_keys_iff, Ne, Ne, (hupper k).eq_zero_iff,
      (hdirect k).eq_zero_iff]
  · intro x hx y hy hkey
    have hx' := hupper x.key
    have hy' := hdirect x.key
    rw [hupperWF.held_eq hx] at hx'
    rw [hkey, hdirectWF.held_eq hy, ← hkey] at hy'
    rw [← bind_totals_sources]
    refine Merges.agrees (h.lossless x.key) ?_ hx' hy'
    rw [bind_totals_sources]
    exact fun _ => isFinite_of_mem_summands

/-- Lines of every kind in two slots of the upper relay, one late and one with a minus zero, that leave
the lower relay in three batches. -/
theorem cascade_agrees_mixed :
    let line (s : String) (h : (Line.parse (ascii s) 1700000031).toOption.isSome = true) : Submission :=
      .of (ascii s) 1700000031 h
    let r : Routes := {
      scope := ⟨1, 42⟩
      steps := [.submit 1700000040 (line "c:0.1:0.2|c|T1700000003" (by decide +kernel)),
        .submit 1700000040 (line "g:-0:5|g|T1700000012|#t:x" (by decide +kernel)),
        .drainDue 1700000050,
        .submit 1700000051 (line "c:0.3|c" (by decide +kernel)),
        .submit 1700000052 (line "d:1:2|d|T1700000003" (by decide +kernel)),
        .drainAll,
        .submit 1700000060 (line "g:0:2.5|g|#t:x" (by decide +kernel)),
        .submit 1700000060 (line "s:a:7|s" (by decide +kernel)),
        .submit 1700000060 (line "d:3|d|T1700000001" (by decide +kernel)),
        .submit 1700000061 (line "c:4|c|T1700000055" (by decide +kernel)),
        .submit 1700000061 (line "s:7:b|s|T1700000003" (by decide +kernel)),
        .drainAll]
      lower := { interval := 10 }
      lowerShards := 3
      withScope := true
      upper := { interval := 60, maxPast := 1000 }
      upperShards := 1
      upperClock := fun i => 1700000060 + UInt64.ofNat i
      direct := { interval := 60 }
      directShards := 2
      directClock := fun _ => 1700000040 }
    r.Proper ∧ r.Agree := by
  intro line r
  have h : r.Proper := by
    refine ⟨?_, rfl, ?_, ?_, ?_, ?_, ?_, ?_, ?_⟩ <;> decide +kernel
  exact ⟨h, cascade_agrees h⟩

end Routes

end Aggregator

end Telemetry

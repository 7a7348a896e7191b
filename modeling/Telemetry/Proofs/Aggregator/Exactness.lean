import Mathlib.Algebra.Order.Ring.Int
import Telemetry.Proofs.Aggregator.Timing

/-!
# Where the arithmetic of times is exact

The end of the window and the due time are sums modulo `2 ^ 64`, and settings are accepted whatever they add
up to.  The beginning of the window never wraps, because it is guarded; the two other sums are the exact ones
if and only if these fit a word (`merge_times`).  So a limit on the future that means none refuses what is
measured now, and a delay that means forever makes a bucket due at once (`limits_wrap`).
-/

namespace Telemetry.Aggregator

variable {ν : Type}

/-! ## Sums of words -/

namespace Settings

variable (s : Settings) (timestamp now : UInt64)

/-- The time lies in the window around a clock reading, counted without bound. -/
def InWindow : Prop :=
  (now.toNat : ℤ) - s.maxPast.toNat ≤ timestamp.toNat ∧
    (timestamp.toNat : ℤ) ≤ now.toNat + s.maxFuture.toNat

instance : Decidable (s.InWindow timestamp now) := inferInstanceAs (Decidable (_ ∧ _))

/-- The delay after the end of the slot of a time, counted without bound. -/
def delayEnd : ℕ :=
  s.interval.toNat * (timestamp.toNat / s.interval.toNat) + s.interval.toNat + s.initialDelay.toNat

/-- The debounce after a clock reading, counted without bound. -/
def debounceEnd : ℕ := now.toNat + s.debounceDelay.toNat

theorem accepts_iff : s.accepts timestamp now = true ↔
    now.toNat ≤ timestamp.toNat + s.maxPast.toNat ∧
      timestamp.toNat ≤ (now.toNat + s.maxFuture.toNat) % 2 ^ 64 := by
  have hearliest : (s.earliest now).toNat = now.toNat - s.maxPast.toNat := by
    rw [earliest]
    split
    · next h => exact UInt64.toNat_sub_of_le _ _ (UInt64.le_of_lt h)
    · next h =>
      rw [UInt64.lt_iff_toNat_lt] at h
      rw [UInt64.toNat_zero]
      omega
  rw [accepts, Bool.and_eq_true, decide_eq_true_iff, decide_eq_true_iff, UInt64.le_iff_toNat_le,
    UInt64.le_iff_toNat_le, hearliest, latest, UInt64.toNat_add]
  omega

/-- The window is the exact one if its end fits a word. -/
theorem accepts_iff_inWindow {s : Settings} {now : UInt64} (h : now.toNat + s.maxFuture.toNat < 2 ^ 64)
    (timestamp : UInt64) : s.accepts timestamp now = true ↔ s.InWindow timestamp now := by
  rw [accepts_iff, Nat.mod_eq_of_lt h, InWindow]
  omega

/-- The clock reading itself lies in the window only if the end of the window fits a word. -/
theorem accepts_now_iff : s.accepts now now = true ↔ now.toNat + s.maxFuture.toNat < 2 ^ 64 := by
  have hnow : now.toNat < 2 ^ 64 := now.toNat_lt
  have hfuture : s.maxFuture.toNat < 2 ^ 64 := s.maxFuture.toNat_lt
  rw [accepts_iff]
  omega

theorem toNat_dueAt : (s.dueAt (s.truncate timestamp) now).toNat =
    max (s.delayEnd timestamp % 2 ^ 64) (s.debounceEnd now % 2 ^ 64) := by
  have hmax : ∀ x y : UInt64, (max x y).toNat = max x.toNat y.toNat := by
    intro x y
    change (if x ≤ y then y else x).toNat = _
    split <;> rename_i h <;> rw [UInt64.le_iff_toNat_le] at h <;> omega
  rw [dueAt, hmax, UInt64.toNat_add, UInt64.toNat_add, UInt64.toNat_add, toNat_truncate, Nat.mod_add_mod]
  rfl

/-- A due time is never too early if and only if both of its sums fit a word. -/
theorem dueAt_le_iff : (∀ t, s.dueAt (s.truncate timestamp) now ≤ t →
      max (s.delayEnd timestamp) (s.debounceEnd now) ≤ t.toNat) ↔
    s.delayEnd timestamp < 2 ^ 64 ∧ s.debounceEnd now < 2 ^ 64 := by
  constructor
  · intro h
    have hdue := h _ (UInt64.le_refl _)
    have hlt := (s.dueAt (s.truncate timestamp) now).toNat_lt
    omega
  · rintro ⟨hdelay, hdebounce⟩ t ht
    rwa [UInt64.le_iff_toNat_le, toNat_dueAt, Nat.mod_eq_of_lt hdelay, Nat.mod_eq_of_lt hdebounce] at ht

end Settings

/-! ## Merges -/

/-- A due drain returns a key if the bucket stored for it is due. -/
theorem exists_mem_drainDue_iff {a : Aggregator ν} (h : WF a) {k : BucketKey} {due : UInt64}
    (hdue : (a.lookup k).map Stored.dueAt = some due) (t : UInt64) :
    (∃ bucket ∈ (a.drainDue t).1, bucket.key = k) ↔ due ≤ t := by
  obtain ⟨b, hb, rfl⟩ := Option.map_eq_some_iff.mp hdue
  constructor
  · rintro ⟨bucket, hbucket, rfl⟩
    obtain ⟨c, hc, hct, -⟩ := (mem_drainDue_iff h).mp hbucket
    rw [hb, Option.some_inj] at hc
    rwa [hc]
  · intro ht
    obtain ⟨hmem, hkey⟩ := h.lookup_eq_some_iff.mp hb
    exact ⟨release a.settings b, (release_mem_drainDue h hmem t).mpr ht, hkey⟩

/-- A drain at the time can be the first to return the key, whatever is asked before it. -/
def FirstReturned (a : Aggregator ν) [Add ν] [LT ν] [DecidableLT ν] (k : BucketKey) (t : UInt64) : Prop :=
  ∃ later, (∀ e ∈ (a.run later).1, returnedBy k e = []) ∧
    ∃ bucket ∈ ((a.run later).2.drainDue t).1, bucket.key = k

section Merge

variable [Add ν] [LT ν] [DecidableLT ν] {a : Aggregator ν}

theorem merge_ne_invalidTimestamp_iff (h : a.closed = false) (now : UInt64) (key : BucketKey) (v : Value ν) :
    (a.merge now key v).1 ≠ .invalidTimestamp ↔ a.settings.accepts key.timestamp now = true := by
  rw [merge_eq, h, if_neg Bool.false_ne_true]
  cases haccepts : a.settings.accepts key.timestamp now with
  | false => simp
  | true =>
    rw [Bool.not_true, if_neg Bool.false_ne_true]
    dsimp only
    split <;> simp

/-- The merge that creates a bucket gives it its due time. -/
theorem dueAt_merge (h : WF a) {now : UInt64} {key : BucketKey} {v : Value ν}
    (hok : (a.merge now key v).1 = .ok) (hnew : a.lookup (a.settings.slot key) = none) :
    ((a.merge now key v).2.lookup (a.settings.slot key)).map Stored.dueAt =
      some (a.settings.dueAt (a.settings.truncate key.timestamp) now) := by
  rcases merge_cases now key v a with ⟨o, ho, hm⟩ | ⟨a', ha, hm⟩
  · rw [hm] at hok
    exact absurd hok ho
  · rw [hm, lookup_place h ha, if_pos rfl, hnew]
    rfl

theorem firstReturned_iff (h : WF a) {k : BucketKey} {due : UInt64}
    (hdue : (a.lookup k).map Stored.dueAt = some due) (t : UInt64) : FirstReturned a k t ↔ due ≤ t := by
  constructor
  · rintro ⟨later, hlater, hbucket⟩
    exact (exists_mem_drainDue_iff (h.run later) (dueAt_run_of_not_returned h hdue hlater) t).mp hbucket
  · intro ht
    exact ⟨[], List.forall_mem_nil _, (exists_mem_drainDue_iff h hdue t).mpr ht⟩

end Merge

/-! ## Runs -/

section Run

variable [Add ν] [LT ν] [DecidableLT ν]

/-- What a merge at a clock reading makes of its time, and how that compares with exact sums. -/
structure MergeTimes (s : Settings) (a : Aggregator ν) (now : UInt64) : Prop where
  /-- A time is accepted from the exact beginning of the window to its end modulo `2 ^ 64`. -/
  window : ∀ key v, (a.merge now key v).1 ≠ .invalidTimestamp ↔
    now.toNat ≤ key.timestamp.toNat + s.maxPast.toNat ∧
      key.timestamp.toNat ≤ (now.toNat + s.maxFuture.toNat) % 2 ^ 64
  /-- The window is the exact one if and only if its end fits a word. -/
  window_exact : (∀ key v, (a.merge now key v).1 ≠ .invalidTimestamp ↔ s.InWindow key.timestamp now) ↔
    now.toNat + s.maxFuture.toNat < 2 ^ 64
  /-- If it does not, not even what is measured now is accepted. -/
  window_now : ∀ key v, key.timestamp = now →
    ((a.merge now key v).1 = .invalidTimestamp ↔ 2 ^ 64 ≤ now.toNat + s.maxFuture.toNat)
  /-- A bucket that the merge has created is returned from the later of both sums modulo `2 ^ 64` on. -/
  due : ∀ key v, (a.merge now key v).1 = .ok → a.lookup (s.slot key) = none →
    ∀ t, FirstReturned (a.merge now key v).2 (s.slot key) t ↔
      max (s.delayEnd key.timestamp % 2 ^ 64) (s.debounceEnd now % 2 ^ 64) ≤ t.toNat
  /-- It is never returned too early if and only if both sums fit a word. -/
  due_exact : ∀ key v, (a.merge now key v).1 = .ok → a.lookup (s.slot key) = none →
    ((∀ t, FirstReturned (a.merge now key v).2 (s.slot key) t →
        s.delayEnd key.timestamp ≤ t.toNat ∧ s.debounceEnd now ≤ t.toNat) ↔
      s.delayEnd key.timestamp < 2 ^ 64 ∧ s.debounceEnd now < 2 ^ 64)

theorem WF.mergeTimes {a : Aggregator ν} (h : WF a) (hopen : a.closed = false) (now : UInt64) :
    MergeTimes a.settings a now := by
  have hwindow := merge_ne_invalidTimestamp_iff hopen now
  have hfirst : ∀ key v, (a.merge now key v).1 = .ok → a.lookup (a.settings.slot key) = none →
      ∀ t, FirstReturned (a.merge now key v).2 (a.settings.slot key) t ↔
        a.settings.dueAt (a.settings.truncate key.timestamp) now ≤ t := by
    intro key v hok hnew
    exact firstReturned_iff (h.merge now key v) (dueAt_merge h hok hnew)
  have hnow : ∀ key v, key.timestamp = now →
      ((a.merge now key v).1 ≠ .invalidTimestamp ↔ now.toNat + a.settings.maxFuture.toNat < 2 ^ 64) := by
    intro key v hkey
    rw [hwindow, hkey, Settings.accepts_now_iff]
  constructor
  case window =>
    intro key v
    rw [hwindow, Settings.accepts_iff]
  case window_exact =>
    constructor
    · intro hexact
      -- what is measured now lies in the exact window
      have hin : a.settings.InWindow now now := by
        rw [Settings.InWindow]
        omega
      exact (hnow ⟨⟨0, 0⟩, [], [], now⟩ (.set .empty) rfl).mp ((hexact _ _).mpr hin)
    · intro hfits key v
      rw [hwindow, Settings.accepts_iff_inWindow hfits]
  case window_now =>
    intro key v hkey
    have hnot := not_congr (hnow key v hkey)
    rwa [not_not, Nat.not_lt] at hnot
  case due =>
    intro key v hok hnew t
    rw [hfirst key v hok hnew, UInt64.le_iff_toNat_le, Settings.toNat_dueAt]
  case due_exact =>
    intro key v hok hnew
    simp only [hfirst key v hok hnew, ← Settings.dueAt_le_iff, max_le_iff]

/-- **The times of a merge are exact if and only if the sums fit a word**, on every open aggregator, whatever
its settings and whatever was asked of it before. -/
theorem merge_times (s : Settings) (shards : Nat) (requests : List (Request ν)) (now : UInt64)
    (hopen : ((empty s shards).run requests).2.closed = false) :
    MergeTimes s ((empty s shards).run requests).2 now := by
  have hwf : WF ((empty s shards : Aggregator ν).run requests).2 := (WF.empty s shards).run requests
  have htimes := hwf.mergeTimes hopen now
  rwa [settings_run] at htimes

end Run

/-- One of two buckets has been returned when its key is merged again, with slots of a minute and a
debounce that outlasts the delay. -/
theorem merge_times_after_drain :
    let s : Settings := { interval := 60, initialDelay := 5, debounceDelay := 90, maxPast := 3600 }
    let key : BucketKey := ⟨⟨1, 42⟩, ascii "c:custom/a@none", [], 1700000000⟩
    let before : List (Request Float) := [.merge 1700000001 key (.counter 1),
      .merge 1700000050 { key with timestamp := 1700000050 } (.counter 2), .drainDue 1700000091]
    let a := ((empty s : Aggregator Float).run before).2
    a.closed = false ∧ a.size = 1 ∧ MergeTimes s a 1700000100 ∧
      ∀ t, FirstReturned (a.merge 1700000100 key (.counter 3)).2 (s.slot key) t ↔ 1700000190 ≤ t.toNat := by
  intro s key before a
  have hopen : a.closed = false := by decide +kernel
  have htimes : MergeTimes s a 1700000100 := merge_times s defaultShards before 1700000100 hopen
  have hdue := htimes.due key (.counter 3) (by decide +kernel) (by decide +kernel)
  have hlater : max (s.delayEnd key.timestamp % 2 ^ 64) (s.debounceEnd 1700000100 % 2 ^ 64) =
      1700000190 := by decide +kernel
  exact ⟨hopen, by decide +kernel, htimes, fun t => hlater ▸ hdue t⟩

/-- **Accepted settings whose sums wrap**: no limit on the future, and a delay without end.  What is measured
now lies in the exact window of the former and is refused, and with the latter it leaves again at once. -/
theorem limits_wrap :
    let unlimited : Settings := { maxFuture := 18446744073709551615 }
    let never : Settings := { initialDelay := 18446744073709551615, debounceDelay := 0 }
    let key : BucketKey := ⟨⟨1, 42⟩, ascii "c:custom/a@none", [], 1700000009⟩
    unlimited.validate = .ok () ∧ unlimited.InWindow key.timestamp 1700000009 ∧
      ((empty unlimited : Aggregator Float).merge 1700000009 key (.counter 1)).1 = .invalidTimestamp ∧
      never.validate = .ok () ∧ 1700000009 < never.delayEnd key.timestamp ∧
      (((empty never : Aggregator Float).merge 1700000009 key (.counter 1)).2.drainDue 1700000009).1.map
        Bucket.key = [never.slot key] := by
  refine ⟨rfl, ?_, ?_, rfl, ?_, ?_⟩ <;> decide +kernel

end Telemetry.Aggregator

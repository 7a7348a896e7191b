import Mathlib.Data.List.DropRight
import Telemetry.Proofs.Aggregator.Conservation

/-!
# When a bucket is due

The due time of a bucket is computed by the merge that creates it and is never touched again.  A history
tells which merge that was: the first that was accepted for the key since the key was last returned
(`createdAt?`).  One request changes that clock and the stored due time alike (`dueAt_serve`), so the two
agree after every run (`dueAt_run`), and `run_timed` says what this means for the drains.
-/

namespace Telemetry.Aggregator

variable {ν : Type}

/-! ## The clock of the first merge -/

/-- The clock reading that a submission sees. -/
def Request.clock? : Request ν → Option UInt64
  | .merge now _ _ | .mergePoint now _ _ | .mergeBucket now _ => some now
  | .drainDue _ | .drainAll | .close | .size => none

/-- The clock reading of a request that had a value accepted for a key. -/
def acceptedAt? (s : Settings) (k : BucketKey) (e : Request ν × Answer ν) : Option UInt64 :=
  if (acceptedBy s k e).isEmpty then none else e.1.clock?

/-- The clock reading of the first request that had a value accepted for a key since the key was last
returned. -/
def createdAt? (s : Settings) (k : BucketKey) (h : History ν) : Option UInt64 :=
  (h.rtakeWhile fun e => (returnedBy k e).isEmpty).findSome? (acceptedAt? s k)

section History

variable {s : Settings} {k : BucketKey} {h : History ν} {c : UInt64}

theorem createdAt?_concat (s : Settings) (k : BucketKey) (h : History ν) (e : Request ν × Answer ν) :
    createdAt? s k (h ++ [e]) =
      if (returnedBy k e).isEmpty then (createdAt? s k h).or (acceptedAt? s k e) else none := by
  rw [createdAt?, List.rtakeWhile_concat]
  split
  · rw [List.findSome?_append, List.findSome?_singleton, createdAt?]
  · rfl

/-- What creates the bucket of a key is a submission that falls into its slot. -/
theorem slot_of_createdAt? (hc : createdAt? s k h = some c) :
    ∃ e ∈ h, e.1.clock? = some c ∧ ∃ key v, e.1.submission? = some (key, v) ∧ s.slot key = k := by
  obtain ⟨e, he, haccepted⟩ := List.exists_of_findSome?_eq_some hc
  have hmem : e ∈ h := (List.rtakeWhile_suffix _ h).mem he
  refine ⟨e, hmem, ?_⟩
  rw [acceptedAt?] at haccepted
  split at haccepted
  · cases haccepted
  · next hne =>
    refine ⟨haccepted, ?_⟩
    unfold acceptedBy at hne
    split at hne
    · next r hs =>
      split at hne
      · next key v hsubmission =>
        split at hne
        · next hslot => exact ⟨key, v, hsubmission, hslot⟩
        · cases hne rfl
      · cases hne rfl
    · cases hne rfl

end History

/-! ## Drains -/

section Drains

/-- The buckets that the requests of a history returned, in order. -/
def History.returned (h : History ν) : List (Bucket ν) :=
  h.flatMap fun e => match e.2 with
    | .buckets bs => bs
    | _ => []

/-- A request that neither merges nor drains anything that is not due by a time. -/
def Request.Early (t : UInt64) : Request ν → Prop
  | .drainDue now => now ≤ t
  | .close | .size => True
  | .merge .. | .mergePoint .. | .mergeBucket .. | .drainAll => False

variable {a : Aggregator ν}

theorem fst_drainDue (a : Aggregator ν) (t : UInt64) :
    (a.drainDue t).1 = (a.stored.filter fun b => b.dueAt ≤ t).map (release a.settings) := drain_fst _ a

theorem stored_drainDue (a : Aggregator ν) (t : UInt64) :
    (a.drainDue t).2.stored = a.stored.filter fun b => !decide (b.dueAt ≤ t) := stored_drain _ a

/-- **A due drain returns exactly the stored buckets whose time has come.** -/
theorem mem_drainDue_iff (h : WF a) {bucket : Bucket ν} {t : UInt64} : bucket ∈ (a.drainDue t).1 ↔
    ∃ b, a.lookup bucket.key = some b ∧ b.dueAt ≤ t ∧ release a.settings b = bucket := by
  rw [fst_drainDue, List.mem_map]
  constructor
  · rintro ⟨b, hb, rfl⟩
    obtain ⟨hb, hdue⟩ := List.mem_filter.mp hb
    exact ⟨b, h.lookup_eq_some_iff.mpr ⟨hb, rfl⟩, of_decide_eq_true hdue, rfl⟩
  · rintro ⟨b, hb, hdue, hrelease⟩
    exact ⟨b, List.mem_filter.mpr ⟨(h.lookup_eq_some_iff.mp hb).1, decide_eq_true hdue⟩, hrelease⟩

theorem release_mem_drainDue (h : WF a) {b : Stored ν} (hb : b ∈ a.stored) (t : UInt64) :
    release a.settings b ∈ (a.drainDue t).1 ↔ b.dueAt ≤ t := by
  have hfound : a.lookup (release a.settings b).key = some b := h.lookup_eq_some_iff.mpr ⟨hb, rfl⟩
  rw [mem_drainDue_iff h, hfound]
  constructor
  · rintro ⟨c, hc, hdue, -⟩
    rwa [Option.some_inj.mp hc]
  · intro hdue
    exact ⟨b, rfl, hdue, rfl⟩

section Filters

variable {α : Type} {p q : α → Bool} (hpq : ∀ x, p x = true → q x = true) (l : List α)
include hpq

theorem filter_append_filter_perm : (l.filter p ++ (l.filter fun x => !p x).filter q).Perm (l.filter q) := by
  have hp : (l.filter q).filter p = l.filter p := by
    rw [List.filter_filter]
    refine List.filter_congr fun x _ => ?_
    cases hx : p x with
    | true => rw [hpq x hx]; rfl
    | false => rfl
  have hperm := List.filter_append_perm p (l.filter q)
  rwa [hp, List.filter_comm] at hperm

theorem filter_not_filter_not : ((l.filter fun x => !p x).filter fun x => !q x) = l.filter fun x => !q x := by
  rw [List.filter_filter]
  refine List.filter_congr fun x _ => ?_
  cases hx : p x with
  | true => rw [hpq x hx]; rfl
  | false => exact Bool.and_true _

end Filters

/-- Two drains return together what the later one returns alone. -/
theorem drainDue_drainDue (a : Aggregator ν) {t₁ t₂ : UInt64} (h : t₁ ≤ t₂) :
    ((a.drainDue t₁).1 ++ ((a.drainDue t₁).2.drainDue t₂).1).Perm (a.drainDue t₂).1 ∧
      ((a.drainDue t₁).2.drainDue t₂).2.stored = (a.drainDue t₂).2.stored := by
  have hle : ∀ b : Stored ν, decide (b.dueAt ≤ t₁) = true → decide (b.dueAt ≤ t₂) = true := by
    intro b hb
    exact decide_eq_true (UInt64.le_trans (of_decide_eq_true hb) h)
  have hsettings : (a.drainDue t₁).2.settings = a.settings := rfl
  constructor
  · rw [fst_drainDue, fst_drainDue, fst_drainDue, hsettings, stored_drainDue, ← List.map_append]
    exact (filter_append_filter_perm hle a.stored).map _
  · rw [stored_drainDue, stored_drainDue, stored_drainDue]
    exact filter_not_filter_not hle a.stored

end Drains

section Due

variable [Add ν] [LT ν] [DecidableLT ν] {a : Aggregator ν}

/-! ## What a request does to a due time -/

/-- A submission is merged at the clock reading that it sees. -/
theorem serve_submission (a : Aggregator ν) {r : Request ν} {k : BucketKey} {v : Value ν}
    (hr : r.submission? = some (k, v)) : ∃ now, r.clock? = some now ∧
      a.serve r = (.outcome (a.merge now k v).1, (a.merge now k v).2) := by
  cases r with
  | merge now key value | mergePoint now scope point | mergeBucket now bucket =>
    obtain ⟨rfl, rfl⟩ := Prod.mk.inj (Option.some.inj hr)
    exact ⟨now, rfl, rfl⟩
  | drainDue | drainAll | close | size => cases hr

/-- A value that is accepted leaves the due time as it is, and gives one where there is none. -/
theorem dueAt_absorb? {k : BucketKey} {due : UInt64} {v : Value ν} {stored : Option (Stored ν)}
    (h : (absorb? k due v stored).isSome) :
    (absorb? k due v stored).map Stored.dueAt = (stored.map Stored.dueAt).or (some due) := by
  cases stored with
  | none => rfl
  | some b =>
    rw [absorb?, Option.isSome_map] at h
    obtain ⟨w, hw⟩ := Option.isSome_iff_exists.mp h
    simp [absorb?, hw]

/-- **A request keeps the due time of a stored bucket**; an accepted merge gives one to a bucket that was
not there, and a drain takes it away with the bucket. -/
theorem dueAt_serve (h : WF a) (r : Request ν) (k : BucketKey) :
    ((a.serve r).2.lookup k).map Stored.dueAt =
      if (returnedBy k (r, (a.serve r).1)).isEmpty then
        ((a.lookup k).map Stored.dueAt).or
          ((acceptedAt? a.settings k (r, (a.serve r).1)).map (a.settings.dueAt k.timestamp))
      else none := by
  rcases serve_cases a r with ⟨-, key, v, hs, -⟩ | ⟨leaves, -, he⟩ | ⟨-, he⟩ | ⟨-, he⟩
  · obtain ⟨now, hclock, he⟩ := serve_submission a hs
    rw [he]
    rcases merge_cases now key v a with ⟨o, ho, hm⟩ | ⟨a', ha, hm⟩
    · rw [hm]
      cases o with
      | ok => exact absurd rfl ho
      | typeMismatch | invalidTimestamp | shuttingDown => simp [returnedBy, acceptedAt?, acceptedBy]
    · have haccepted : acceptedAt? a.settings k (r, (.outcome .ok : Answer ν)) =
          if a.settings.slot key = k then some now else none := by
        simp only [acceptedAt?, acceptedBy, hs, ← hclock]
        split <;> rfl
      have hnone : returnedBy k (r, (.outcome .ok : Answer ν)) = [] := rfl
      rw [hm, haccepted, hnone, List.isEmpty_nil, if_pos rfl, lookup_place h ha]
      by_cases hk : a.settings.slot key = k
      · subst hk
        have hplaced := place?_isSome a (a.settings.slot key)
          (a.settings.dueAt (a.settings.slot key).timestamp now) v
        rw [ha] at hplaced
        rw [if_pos rfl, if_pos rfl, dueAt_absorb? hplaced.symm]
        rfl
      · rw [if_neg (Ne.symm hk), if_neg hk, Option.map_none, Option.or_none]
  · have hreturned : returnedBy k (r, (.buckets (a.drain leaves).1 : Answer ν)) =
        (((a.lookup k).filter leaves).map (release a.settings)).toList := filter_drain leaves h k
    rw [he, hreturned, lookup_drain leaves h]
    cases hl : a.lookup k with
    | none => simp [acceptedAt?, acceptedBy]
    | some b => by_cases hb : leaves b <;> simp [Option.filter, hb, acceptedAt?, acceptedBy]
  · rw [he]
    simp [returnedBy, acceptedAt?, acceptedBy]
  · rw [he]
    simp [returnedBy, acceptedAt?, acceptedBy]

/-! ## Runs -/

/-- While the key is not returned, its bucket stays due at the same time. -/
theorem dueAt_run_of_not_returned (h : WF a) {k : BucketKey} {due : UInt64} {later : List (Request ν)}
    (hdue : (a.lookup k).map Stored.dueAt = some due)
    (hlater : ∀ e ∈ (a.run later).1, returnedBy k e = []) :
    ((a.run later).2.lookup k).map Stored.dueAt = some due := by
  induction later generalizing a with
  | nil => exact hdue
  | cons r rest ih =>
    rw [run_cons] at hlater ⊢
    obtain ⟨hr, hrest⟩ := List.forall_mem_cons.mp hlater
    have hnext := dueAt_serve h r k
    rw [hr, hdue] at hnext
    exact ih (h.serve r) hnext hrest

/-- **The due time of a stored bucket is that of the merge that created it**, whatever else happened. -/
theorem dueAt_run (s : Settings) (shards : Nat) (requests : List (Request ν)) (k : BucketKey) :
    (((empty s shards).run requests).2.lookup k).map Stored.dueAt =
      (createdAt? s k ((empty s shards).run requests).1).map (s.dueAt k.timestamp) := by
  induction requests using List.reverseRecOn with
  | nil =>
    rw [run, lookup_empty]
    rfl
  | append_singleton requests r ih =>
    have hwf : WF ((empty s shards).run requests).2 := (WF.empty s shards).run requests
    have hsettings : ((empty s shards : Aggregator ν).run requests).2.settings = s := settings_run _ requests
    have hserve := dueAt_serve hwf r k
    rw [hsettings, ih, ← Option.map_or, ← Option.map_none (s.dueAt k.timestamp), ← apply_ite,
      ← createdAt?_concat] at hserve
    rw [run_append]
    exact hserve

/-- **Early requests take nothing from a later drain** but what they return themselves. -/
theorem drainDue_run_early (a : Aggregator ν) {t : UInt64} {early : List (Request ν)}
    (hearly : ∀ r ∈ early, r.Early t) :
    (History.returned (a.run early).1 ++ ((a.run early).2.drainDue t).1).Perm (a.drainDue t).1 ∧
      ((a.run early).2.drainDue t).2.stored = (a.drainDue t).2.stored := by
  induction early generalizing a with
  | nil => exact ⟨.refl _, rfl⟩
  | cons r rest ih =>
    obtain ⟨hr, hrest⟩ := List.forall_mem_cons.mp hearly
    obtain ⟨hreturned, hstored⟩ := ih (a.serve r).2 hrest
    rw [run_cons]
    cases r with
    | drainDue now =>
      obtain ⟨hperm, hrest⟩ := drainDue_drainDue a hr
      rw [History.returned, List.flatMap_cons, List.append_assoc]
      exact ⟨(hreturned.append_left _).trans hperm, hstored.trans hrest⟩
    | close | size => exact ⟨hreturned, hstored⟩
    | merge | mergePoint | mergeBucket | drainAll => cases hr

/-- Every bucket that a run returns is as wide as a slot. -/
theorem width_of_mem_returned (a : Aggregator ν) (requests : List (Request ν)) :
    ∀ bucket ∈ History.returned (a.run requests).1, bucket.width = a.settings.interval := by
  induction requests generalizing a with
  | nil =>
    intro bucket hbucket
    cases hbucket
  | cons r rest ih =>
    intro bucket hbucket
    rw [run_cons, History.returned, List.flatMap_cons, List.mem_append] at hbucket
    rcases hbucket with hbucket | hbucket
    · rcases serve_cases a r with ⟨now, k, v, -, he⟩ | ⟨leaves, -, he⟩ | ⟨-, he⟩ | ⟨-, he⟩ <;>
        rw [he] at hbucket
      · cases hbucket
      · rw [drain_fst] at hbucket
        obtain ⟨b, -, rfl⟩ := List.mem_map.mp hbucket
        rfl
      · cases hbucket
      · cases hbucket
    · rw [ih _ bucket hbucket, settings_serve]

/-! ## Due times and histories -/

/-- What the history of a run says about the due times of the buckets that are stored after it. -/
structure Timed (s : Settings) (h : History ν) (a : Aggregator ν) : Prop where
  /-- A stored bucket lies at the start of a slot and was created by a merge of the history.  It is returned
  from the later of two times on: its delay after the end of the slot, and the debounce after that merge. -/
  due : ∀ b ∈ a.stored, (∃ timestamp, b.key.timestamp = s.truncate timestamp) ∧
    ∃ c, createdAt? s b.key h = some c ∧ ∀ t, release s b ∈ (a.drainDue t).1 ↔
      max (b.key.timestamp + s.interval + s.initialDelay) (c + s.debounceDelay) ≤ t
  /-- Whatever is asked next, the due time stays as long as the bucket is not returned. -/
  kept : ∀ later : List (Request ν), ∀ b ∈ a.stored, (∀ e ∈ (a.run later).1, returnedBy b.key e = []) →
    ∃ b' ∈ (a.run later).2.stored, b'.key = b.key ∧
      ∀ t, release s b' ∈ ((a.run later).2.drainDue t).1 ↔ release s b ∈ (a.drainDue t).1
  /-- A drain returns stored buckets only, and the others stay unchanged. -/
  returned : ∀ t, ∀ bucket ∈ (a.drainDue t).1, ∃ b ∈ a.stored, release s b = bucket
  unchanged : ∀ t b, b ∈ (a.drainDue t).2.stored ↔ b ∈ a.stored ∧ release s b ∉ (a.drainDue t).1
  /-- Drains at earlier times, with no merge among them, return with the last one what that returns alone. -/
  parted : ∀ (early : List (Request ν)) (t), (∀ r ∈ early, r.Early t) →
    (History.returned (a.run early).1 ++ ((a.run early).2.drainDue t).1).Perm (a.drainDue t).1 ∧
      ((a.run early).2.drainDue t).2.stored = (a.drainDue t).2.stored
  /-- Whatever was returned is as wide as a slot. -/
  width : ∀ bucket ∈ History.returned h, bucket.width = s.interval

/-- **The due time of a bucket is fixed by its first merge**, whatever the settings, the number of shards,
the requests and the clock readings that they see. -/
theorem run_timed (s : Settings) (shards : Nat) (requests : List (Request ν)) :
    Timed s ((empty s shards).run requests).1 ((empty s shards).run requests).2 := by
  have hwf : WF ((empty s shards : Aggregator ν).run requests).2 := (WF.empty s shards).run requests
  have hsettings : ((empty s shards : Aggregator ν).run requests).2.settings = s := settings_run _ requests
  have hmem := @release_mem_drainDue ν _ hwf
  rw [hsettings] at hmem
  have hstored : ∀ b ∈ ((empty s shards : Aggregator ν).run requests).2.stored,
      (((empty s shards).run requests).2.lookup b.key).map Stored.dueAt = some b.dueAt := by
    intro b hb
    rw [hwf.lookup_eq_some_iff.mpr ⟨hb, rfl⟩, Option.map_some]
  constructor
  case due =>
    intro b hb
    have hdue := hstored b hb
    rw [dueAt_run] at hdue
    obtain ⟨c, hc, hdue⟩ := Option.map_eq_some_iff.mp hdue
    obtain ⟨-, -, -, key, -, -, hslot⟩ := slot_of_createdAt? hc
    refine ⟨⟨key.timestamp, by rw [← hslot]; rfl⟩, c, hc, fun t => ?_⟩
    rw [hmem hb, ← hdue]
    rfl
  case kept =>
    intro later b hb hlater
    obtain ⟨b', hlookup, hdue⟩ :=
      Option.map_eq_some_iff.mp (dueAt_run_of_not_returned hwf (hstored b hb) hlater)
    have hwf' := hwf.run later
    obtain ⟨hb', hkey⟩ := hwf'.lookup_eq_some_iff.mp hlookup
    have hmem' := release_mem_drainDue hwf' hb'
    rw [settings_run, hsettings] at hmem'
    exact ⟨b', hb', hkey, fun t => by rw [hmem', hmem hb, hdue]⟩
  case returned =>
    intro t bucket hbucket
    obtain ⟨b, hb, -, hrelease⟩ := (mem_drainDue_iff hwf).mp hbucket
    rw [hsettings] at hrelease
    exact ⟨b, (hwf.lookup_eq_some_iff.mp hb).1, hrelease⟩
  case unchanged =>
    intro t b
    rw [stored_drainDue, List.mem_filter]
    refine and_congr_right fun hb => ?_
    rw [hmem hb]
    simp
  case parted => exact fun early t => drainDue_run_early _
  case width => exact width_of_mem_returned (empty s shards) requests

end Due

end Telemetry.Aggregator

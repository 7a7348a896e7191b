import Telemetry.Proofs.Aggregator.Ledger
import Telemetry.Proofs.Aggregator.Run

/-!
# No value is lost or counted twice

The values accepted for a key are cut at the drains that returned the key.  `run_conserved`: the
groups are not empty, the bucket of every return is the left fold of its group, and the stored
bucket is the left fold of what was accepted since.  The induction is over the requests with any
ledger and any aggregator at its start; a request moves the bucket of a key at most once
(`serve_moves`), because one drain returns no key twice.
-/

namespace Telemetry.Aggregator

variable {ν : Type}

/-! ## What a request does to a key -/

/-- The values that one request had accepted for a key. -/
def acceptedBy (s : Settings) (k : BucketKey) : Request ν × Answer ν → List (Value ν)
  | (r, .outcome .ok) => match r.submission? with
    | some (key, v) => if s.slot key = k then [v] else []
    | none => []
  | _ => []

/-- The buckets of a key that one request returned. -/
def returnedBy (k : BucketKey) : Request ν × Answer ν → List (Bucket ν)
  | (_, .buckets bs) => bs.filter fun b => b.key = k
  | _ => []

def movements (s : Settings) (k : BucketKey) (e : Request ν × Answer ν) :
    List (Movement (Value ν) (Bucket ν)) :=
  (acceptedBy s k e).map .accepted ++ (returnedBy k e).map .returned

theorem movements_buckets (s : Settings) (k : BucketKey) (r : Request ν) (bs : List (Bucket ν)) :
    movements s k (r, .buckets bs) = (bs.filter fun b => b.key = k).map .returned := rfl

/-- The accepted values of a key, cut at the drains that returned it. -/
def ledger (s : Settings) (k : BucketKey) (h : History ν) : Ledger (Value ν) (Bucket ν) :=
  Ledger.empty.recordAll (h.flatMap (movements s k))

theorem accepted_ledger (s : Settings) (k : BucketKey) (h : History ν) :
    (ledger s k h).accepted = h.flatMap (acceptedBy s k) := by
  rw [ledger, Ledger.accepted_recordAll, List.filterMap_flatMap]
  change List.flatMap _ h = _
  congr 1
  funext e
  simp [movements, Function.comp_def]

theorem returned_ledger (s : Settings) (k : BucketKey) (h : History ν) :
    (ledger s k h).returned = h.flatMap (returnedBy k) := by
  rw [ledger, Ledger.returned_recordAll, List.filterMap_flatMap]
  change List.flatMap _ h = _
  congr 1
  funext e
  simp [movements, Function.comp_def]

theorem key_of_mem_returned {s : Settings} {k : BucketKey} {h : History ν}
    {g : List (Value ν) × Bucket ν} (hg : g ∈ (ledger s k h).groups) : g.2.key = k := by
  have hb : g.2 ∈ (ledger s k h).returned := List.mem_map_of_mem hg
  rw [returned_ledger] at hb
  obtain ⟨e, -, he⟩ := List.mem_flatMap.mp hb
  unfold returnedBy at he
  split at he
  · simpa using (List.mem_filter.mp he).2
  · cases he

/-! ## How the bucket of a key moves -/

section Moves

variable {α β : Type} {value : α → Value ν} {content : β → Value ν} [Add ν] [LT ν] [DecidableLT ν]
variable {a a' : Aggregator ν}

/-- A placement moves the bucket of its own key by one accepted value. -/
theorem place_moves (h : WF a) {k : BucketKey} {due : UInt64} (m : α)
    (hp : a.place? k due (value m) = some a') (k' : BucketKey) :
    Moves value content ((a.lookup k').map Stored.value) (if k = k' then [.accepted m] else [])
      ((a'.lookup k').map Stored.value) := by
  rw [lookup_place h hp]
  by_cases hk : k = k'
  · subst hk
    have hsome := place?_isSome a k due (value m)
    rw [hp] at hsome
    rw [if_pos rfl, if_pos rfl]
    cases hl : a.lookup k with
    | none => exact .first m
    | some b =>
      -- the bucket took the value, so the two are of one kind
      rw [hl] at hsome
      cases hw : b.value.merge? (value m) with
      | none =>
        rw [absorb?, hw] at hsome
        cases hsome
      | some w =>
        simp only [absorb?, hw, Option.map_some]
        exact .more m hw
  · rw [if_neg hk, if_neg (Ne.symm hk)]
    exact .still _

theorem leave_moves (settings : Settings) (leaves : Stored ν → Bool) (label : Bucket ν → β)
    (hlabel : ∀ b, content (label b) = b.value) (stored : Option (Stored ν)) :
    Moves value content (stored.map Stored.value)
      (((stored.filter leaves).map (release settings)).toList.map fun b => .returned (label b))
      ((stored.filter fun b => !leaves b).map Stored.value) := by
  cases stored with
  | none => exact .still _
  | some b =>
    by_cases hb : leaves b
    · have hout : content (label (release settings b)) = b.value := hlabel _
      simp only [Option.filter, hb, Bool.not_true, Bool.false_eq_true, ↓reduceIte]
      rw [Option.map_some, ← hout]
      exact .leave (label (release settings b))
    · simp only [Option.filter, hb, Bool.not_false, ↓reduceIte]
      exact .still _

end Moves

/-! ## Runs -/

section Run

variable [Add ν] [LT ν] [DecidableLT ν] {a : Aggregator ν}

/-- **A request moves the bucket of a key at most once**: it accepts one value into it, or it returns
it, or it leaves it alone. -/
theorem serve_moves (h : WF a) (r : Request ν) (k : BucketKey) :
    Moves id Bucket.value ((a.lookup k).map Stored.value)
      (movements a.settings k (r, (a.serve r).1))
      (((a.serve r).2.lookup k).map Stored.value) := by
  rcases serve_cases a r with ⟨now, key, v, hs, he⟩ | ⟨leaves, -, he⟩ | ⟨-, he⟩ | ⟨-, he⟩
  · rw [he]
    rcases merge_cases now key v a with ⟨o, ho, hm⟩ | ⟨a', ha, hm⟩
    · rw [hm]
      cases o with
      | ok => exact absurd rfl ho
      | typeMismatch | invalidTimestamp | shuttingDown => exact .still _
    · rw [hm]
      have hmoved : movements a.settings k (r, (.outcome .ok : Answer ν)) =
          if a.settings.slot key = k then [.accepted v] else [] := by
        simp only [movements, acceptedBy, returnedBy, hs]
        split <;> rfl
      rw [hmoved]
      exact place_moves h v ha k
  · rw [he, movements_buckets, lookup_drain leaves h, filter_drain leaves h]
    exact leave_moves a.settings leaves id (fun _ => rfl) (a.lookup k)
  · rw [he]
    exact .still _
  · rw [he]
    exact .still _

theorem run_balanced (h : WF a) (requests : List (Request ν)) (k : BucketKey)
    {l : Ledger (Value ν) (Bucket ν)}
    (hl : Balanced id Bucket.value l ((a.lookup k).map Stored.value)) :
    Balanced id Bucket.value (l.recordAll ((a.run requests).1.flatMap (movements a.settings k)))
      (((a.run requests).2.lookup k).map Stored.value) := by
  -- any ledger that balances before the first request will do
  induction requests generalizing a l with
  | nil => exact hl
  | cons r rest ih =>
    have hnext := ih (h.serve r) (hl.step (serve_moves h r k))
    rw [settings_serve] at hnext
    rw [run_cons, List.flatMap_cons, Ledger.recordAll, List.foldl_append]
    exact hnext

theorem run_nodup (h : WF a) (requests : List (Request ν)) :
    ∀ e ∈ (a.run requests).1, ∀ bs, e.2 = .buckets bs → (bs.map Bucket.key).Nodup := by
  induction requests generalizing a with
  | nil =>
    intro e he
    cases he
  | cons r rest ih =>
    intro e he bs hbs
    rw [run_cons] at he
    rcases List.mem_cons.mp he with rfl | he
    · rcases serve_cases a r with ⟨now, key, v, -, hr⟩ | ⟨leaves, -, hr⟩ | ⟨-, hr⟩ | ⟨-, hr⟩ <;>
        simp only [hr] at hbs
      · cases hbs
      · cases hbs
        exact nodup_drain leaves h
      · cases hbs
      · cases hbs
    · exact ih (h.serve r) e he bs hbs

/-- What the history of a key says about the buckets that were returned and the one that is
stored. -/
structure Conserved (s : Settings) (k : BucketKey) (h : History ν) (a : Aggregator ν) : Prop where
  /-- The groups and the rest are the accepted values in order. -/
  accepted : (ledger s k h).accepted = h.flatMap (acceptedBy s k)
  /-- There is one group for each returned bucket of the key, in order. -/
  returned : (ledger s k h).returned = h.flatMap (returnedBy k)
  group_key : ∀ g ∈ (ledger s k h).groups, g.2.key = k
  group_ne_nil : ∀ g ∈ (ledger s k h).groups, g.1 ≠ []
  /-- A returned bucket is its group merged from left to right. -/
  group_merged : ∀ g ∈ (ledger s k h).groups, Value.mergeAll? g.1 = some g.2.value
  /-- The stored bucket is the rest merged from left to right. -/
  stored_merged : (a.lookup k).map Stored.value = Value.mergeAll? (ledger s k h).since
  stored_none : a.lookup k = none ↔ (ledger s k h).since = []
  stored_once : (a.stored.filter fun b => b.key = k) = (a.lookup k).toList
  drain_nodup : ∀ e ∈ h, ∀ bs, e.2 = .buckets bs → (bs.map Bucket.key).Nodup
  /-- Every reading is returned or stored, in the order of acceptance. -/
  readings : (h.flatMap (returnedBy k)).flatMap (fun b => b.value.readings) ++
      (a.lookup k).elim [] (fun b => b.value.readings) =
    (h.flatMap (acceptedBy s k)).flatMap Value.readings

/-- **No value is lost or counted twice**, whatever the settings, the number of shards, the requests
and the clock readings that they see. -/
theorem run_conserved (s : Settings) (shards : Nat) (requests : List (Request ν)) (k : BucketKey) :
    Conserved s k ((empty s shards).run requests).1 ((empty s shards).run requests).2 := by
  have hwf : WF (empty s shards : Aggregator ν) := WF.empty s shards
  have hend := hwf.run requests
  have hstart : Balanced id Bucket.value (Ledger.empty : Ledger (Value ν) (Bucket ν))
      (((empty s shards : Aggregator ν).lookup k).map Stored.value) := by
    rw [lookup_empty]
    exact .empty
  have hbal : Balanced id Bucket.value (ledger s k ((empty s shards).run requests).1)
      ((((empty s shards).run requests).2.lookup k).map Stored.value) :=
    run_balanced hwf requests k hstart
  refine ⟨accepted_ledger .., returned_ledger .., fun g hg => key_of_mem_returned hg,
    fun g hg => hbal.group_ne_nil hg, fun g hg => ?_, ?_, ?_, hend.filter_stored k,
    run_nodup hwf requests, ?_⟩
  · simpa using hbal.group g hg
  · simpa using hbal.since.symm
  · rw [hbal.since_eq_nil_iff, Option.map_eq_none_iff]
  · have hread := hbal.readings
    rw [returned_ledger, accepted_ledger, Option.elim_map] at hread
    exact hread

end Run

end Telemetry.Aggregator

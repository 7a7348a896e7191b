import Telemetry.Proofs.Aggregator.Run

/-!
# The part of an aggregator that concerns some projects

Restricting an aggregator to some projects commutes with a merge into one of them (`restrict_merge`) and
with every drain (`restrict_drain`), hence with a run of such requests (`restrict_run`); merges into
other projects do not show (`restrict_run_of_not`).  So what becomes of the buckets of a project depends
on the merges into that project and on the drains alone.
-/

namespace Telemetry.Aggregator

variable {ν : Type} (keep : Scope → Bool)

namespace Shard

/-- The buckets of some projects. -/
def restrict (s : Shard ν) : Shard ν := s.filter fun b => keep b.key.scope

theorem restrict_replace (k : BucketKey) (v : Value ν) (s : Shard ν) :
    restrict keep (s.replace k v) = replace k v (restrict keep s) := by
  rw [restrict, replace, List.filter_map, replace, restrict]
  congr 1
  apply List.filter_congr
  intro b _
  by_cases hb : b.key = k <;> simp [hb]

variable {keep}

theorem replace_restrict_of_not {k : BucketKey} (hk : keep k.scope = false) (v : Value ν) (s : Shard ν) :
    replace k v (restrict keep s) = restrict keep s := by
  refine (List.map_congr_left fun b hb => ?_).trans (List.map_id _)
  have hkept : keep b.key.scope = true := (List.mem_filter.mp hb).2
  refine if_neg ?_
  intro hkey
  rw [hkey, hk] at hkept
  cases hkept

theorem find?_restrict {k : BucketKey} (hk : keep k.scope = true) (s : Shard ν) :
    ((restrict keep s).find? fun b => b.key = k) = s.find? fun b => b.key = k := by
  rw [restrict, List.find?_filter]
  congr 1
  funext b
  by_cases hb : b.key = k <;> simp [hb, hk]

variable [Add ν] [LT ν] [DecidableLT ν]

theorem put?_restrict {k : BucketKey} (hk : keep k.scope = true) (due : UInt64) (v : Value ν)
    (s : Shard ν) : put? k due v (restrict keep s) = (put? k due v s).map (restrict keep) := by
  unfold put?
  rw [find?_restrict hk]
  cases s.find? fun b => b.key = k with
  | none =>
    dsimp only [Option.map]
    rw [restrict, restrict, List.filter_cons, if_pos hk]
  | some b =>
    dsimp only
    rw [Option.map_map]
    congr 1
    funext w
    exact (restrict_replace keep k w s).symm

theorem restrict_put?_of_not {k : BucketKey} (hk : keep k.scope = false) {due : UInt64} {v : Value ν}
    {s s' : Shard ν} (h : put? k due v s = some s') : restrict keep s' = restrict keep s := by
  unfold put? at h
  split at h
  · cases h
    exact List.filter_cons_of_neg (by simp [hk])
  · obtain ⟨w, -, rfl⟩ := Option.map_eq_some_iff.mp h
    rw [restrict_replace, replace_restrict_of_not hk]

end Shard

/-- The buckets of some projects, where they lie. -/
def restrict (a : Aggregator ν) : Aggregator ν :=
  { a with shards := a.shards.map (Shard.restrict keep) }

theorem stored_restrict (a : Aggregator ν) :
    (a.restrict keep).stored = a.stored.filter fun b => keep b.key.scope := by
  rw [stored, stored, List.filter_flatten]
  rfl

theorem shardOf_restrict (a : Aggregator ν) (k : BucketKey) :
    (a.restrict keep).shardOf k = a.shardOf k := shardOf_congr (List.length_map _) k

theorem shardFor_restrict (a : Aggregator ν) (k : BucketKey) :
    (a.restrict keep).shardFor k = (a.shardFor k).restrict keep := by
  rw [shardFor, shardOf_restrict, shardFor, restrict, List.getElem?_map]
  cases a.shards[a.shardOf k]? <;> rfl

/-! ## Drains -/

/-- **A drain of the part** returns the part of what the drain returns. -/
theorem restrict_drain (leaves : Stored ν → Bool) (a : Aggregator ν) :
    (a.restrict keep).drain leaves =
      ((a.drain leaves).1.filter fun b => keep b.key.scope, (a.drain leaves).2.restrict keep) := by
  have hcomp : (fun b : Bucket ν => keep b.key.scope) ∘ release a.settings =
      fun b : Stored ν => keep b.key.scope := rfl
  refine Prod.ext ?_ ?_
  · rw [drain_fst, drain_fst, stored_restrict, List.filter_map, hcomp, List.filter_comm]
    rfl
  · simp only [drain, restrict, Shard.take, List.map_map]
    congr 1
    apply List.map_congr_left
    intro s _
    exact List.filter_comm ..

/-! ## Merges -/

section Merge

variable {keep} [Add ν] [LT ν] [DecidableLT ν] {now : UInt64} {k : BucketKey}

theorem restrict_place (hk : keep k.scope = true) (due : UInt64) (v : Value ν) (a : Aggregator ν) :
    (a.restrict keep).place? k due v = (a.place? k due v).map (restrict keep) := by
  rw [place?, place?, shardFor_restrict, Shard.put?_restrict hk, shardOf_restrict, Option.map_map,
    Option.map_map]
  congr 1
  funext s
  simp only [Function.comp, restrict, List.map_set]

theorem restrict_place_of_not (hk : keep k.scope = false) {due : UInt64} {v : Value ν}
    {a a' : Aggregator ν} (h : a.place? k due v = some a') : a'.restrict keep = a.restrict keep := by
  obtain ⟨s, hs, rfl⟩ := Option.map_eq_some_iff.mp h
  have hkept := Shard.restrict_put?_of_not hk hs
  simp only [restrict]
  congr 1
  rw [List.map_set, hkept, shardFor]
  -- the shard is replaced by one with the same part, if it is there at all
  by_cases hi : a.shardOf k < a.shards.length
  · rw [List.getElem?_eq_getElem hi, Option.getD_some, ← List.map_set, List.set_getElem_self]
  · exact List.set_eq_of_length_le (by simpa using hi)

/-- **A merge into one of the projects** does to their part what it does to the whole. -/
theorem restrict_merge (hk : keep k.scope = true) (v : Value ν) (a : Aggregator ν) :
    (a.restrict keep).merge now k v = ((a.merge now k v).1, (a.merge now k v).2.restrict keep) := by
  have hslot : keep (a.settings.slot k).scope = true := hk
  have hclosed : (a.restrict keep).closed = a.closed := rfl
  have hsettings : (a.restrict keep).settings = a.settings := rfl
  rw [merge_eq, merge_eq, hclosed, hsettings]
  dsimp only
  rw [restrict_place hslot]
  split
  · rfl
  · split
    · rfl
    · cases a.place? (a.settings.slot k) (a.settings.dueAt (a.settings.slot k).timestamp now) v <;> rfl

/-- **A merge into any other project** does not show. -/
theorem restrict_merge_of_not (hk : keep k.scope = false) (v : Value ν) (a : Aggregator ν) :
    (a.merge now k v).2.restrict keep = a.restrict keep := by
  have hslot : keep (a.settings.slot k).scope = false := hk
  rcases merge_cases now k v a with ⟨o, -, he⟩ | ⟨a', ha, he⟩
  · rw [he]
  · rw [he]
    exact restrict_place_of_not hslot ha

end Merge

/-! ## Runs -/

/-- The answer to the part: the buckets of some projects. -/
def Answer.restrict : Answer ν → Answer ν
  | .buckets bs => .buckets (bs.filter fun b => keep b.key.scope)
  | .outcome o => .outcome o
  | .count n => .count n
  | .closed => .closed

section Run

variable [Add ν] [LT ν] [DecidableLT ν]

/-- A request that some projects see to its full extent; the number of all buckets is none. -/
def Request.Seen : Request ν → Prop
  | .merge _ key _ => keep key.scope = true
  | .mergePoint _ scope _ => keep scope = true
  | .mergeBucket _ b => keep b.key.scope = true
  | .drainDue _ | .drainAll | .close => True
  | .size => False

variable {keep}

theorem restrict_serve {r : Request ν} (h : r.Seen keep) (a : Aggregator ν) :
    (a.restrict keep).serve r = ((a.serve r).1.restrict keep, (a.serve r).2.restrict keep) := by
  cases r with
  | merge now k v =>
    rw [serve, restrict_merge h]
    rfl
  | mergePoint now scope p =>
    rw [serve, mergePoint, restrict_merge (k := ⟨scope, p.name, p.tags, p.timestamp⟩) h]
    rfl
  | mergeBucket now b =>
    rw [serve, mergeBucket, restrict_merge h]
    rfl
  | drainDue now =>
    rw [serve, drainDue, restrict_drain]
    rfl
  | drainAll =>
    rw [serve, drainAll, restrict_drain]
    rfl
  | close => rfl
  | size => cases h

/-- **A run that some projects see** is a run of their part. -/
theorem restrict_run {requests : List (Request ν)} (h : ∀ r ∈ requests, r.Seen keep)
    (a : Aggregator ν) : (a.restrict keep).run requests =
      ((a.run requests).1.map (Prod.map id (Answer.restrict keep)),
        (a.run requests).2.restrict keep) := by
  induction requests generalizing a with
  | nil => rfl
  | cons r rest ih =>
    obtain ⟨hr, hrest⟩ := List.forall_mem_cons.mp h
    rw [run_cons, restrict_serve hr, ih hrest]
    rfl

/-- **Merges into other projects** do not show. -/
theorem restrict_run_of_not {requests : List (Request ν)}
    (h : ∀ r ∈ requests, ∃ k v, r.submission? = some (k, v) ∧ keep k.scope = false)
    (a : Aggregator ν) : (a.run requests).2.restrict keep = a.restrict keep := by
  induction requests generalizing a with
  | nil => rfl
  | cons r rest ih =>
    obtain ⟨⟨k, v, hs, hk⟩, hrest⟩ := List.forall_mem_cons.mp h
    rw [run_cons, ih hrest]
    rcases serve_cases a r with ⟨now, k', v', hs', he⟩ | ⟨leaves, hs', -⟩ | ⟨hs', -⟩ | ⟨hs', -⟩
    · obtain ⟨rfl, rfl⟩ := Prod.mk.inj (Option.some.inj (hs.symm.trans hs'))
      rw [he]
      exact restrict_merge_of_not hk v a
    all_goals
      rw [hs] at hs'
      cases hs'

end Run

end Telemetry.Aggregator

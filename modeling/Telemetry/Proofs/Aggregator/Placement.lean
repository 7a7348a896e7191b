import Mathlib.Data.List.Nodup
import Telemetry.Aggregator

/-!
# Where the buckets of an aggregator lie

Every stored key lies in the shard that its hash selects and nowhere twice (`WF`).  Under that
invariant the aggregator is a map: `lookup` finds the bucket of a key, an accepted value changes the
bucket of its own key only (`lookup_place`), and a drain removes exactly the buckets of its class
(`lookup_drain`) and returns them (`drain_fst`).  Everything that is said about histories, flat maps
and interleavings of an aggregator rests on these three equations.
-/

namespace Telemetry.Aggregator

variable {ν : Type}

/-! ## Lists with distinct keys -/

section Keyed

variable {α κ : Type} [DecidableEq κ] {f : α → κ}

/-- Among distinct keys the first element with a key is the only one. -/
theorem find?_key_eq_some_iff {l : List α} (h : (l.map f).Nodup) {k : κ} {x : α} :
    (l.find? fun y => f y = k) = some x ↔ x ∈ l ∧ f x = k := by
  induction l with
  | nil => simp
  | cons y rest ih =>
    rw [List.map_cons, List.nodup_cons] at h
    by_cases hy : f y = k
    · have hrest : x ∈ rest → f x ≠ k := by
        intro hx he
        exact h.1 (List.mem_map.mpr ⟨x, hx, he.trans hy.symm⟩)
      rw [List.find?_cons_of_pos (by simpa using hy), List.mem_cons]
      grind
    · rw [List.find?_cons_of_neg (by simpa using hy), ih h.2, List.mem_cons]
      grind

theorem filter_key_eq {l : List α} (h : (l.map f).Nodup) (k : κ) :
    (l.filter fun y => f y = k) = (l.find? fun y => f y = k).toList := by
  induction l with
  | nil => rfl
  | cons x rest ih =>
    rw [List.map_cons, List.nodup_cons] at h
    by_cases hx : f x = k
    · have hrest : ∀ y ∈ rest, ¬ f y = k := by
        intro y hy he
        exact h.1 (List.mem_map.mpr ⟨y, hy, he.trans hx.symm⟩)
      simpa [hx] using hrest
    · simpa [hx] using ih h.2

/-- A filter keeps or drops the element of a key, whatever the others are. -/
theorem find?_key_filter {l : List α} (h : (l.map f).Nodup) (p : α → Bool) (k : κ) :
    ((l.filter p).find? fun y => f y = k) = (l.find? fun y => f y = k).filter p := by
  ext x
  have hp : ((l.filter p).map f).Nodup := h.sublist (List.filter_sublist.map f)
  rw [find?_key_eq_some_iff hp, List.mem_filter, Option.filter_eq_some_iff,
    find?_key_eq_some_iff h]
  tauto

end Keyed

/-! ## The bucket of a key -/

/-- The key of the bucket that a submission goes to: its time is the start of the slot. -/
def Settings.slot (s : Settings) (k : BucketKey) : BucketKey :=
  { k with timestamp := s.truncate k.timestamp }

/-- The start of a slot, counted in intervals. -/
theorem Settings.toNat_truncate (s : Settings) (timestamp : UInt64) :
    (s.truncate timestamp).toNat = s.interval.toNat * (timestamp.toNat / s.interval.toNat) := by
  have hle : timestamp % s.interval ≤ timestamp := by
    rw [UInt64.le_iff_toNat_le, UInt64.toNat_mod]
    exact Nat.mod_le _ _
  rw [Settings.truncate, UInt64.toNat_sub_of_le _ _ hle, UInt64.toNat_mod]
  have hdivision := Nat.div_add_mod timestamp.toNat s.interval.toNat
  omega

/-- The shard that keeps a key. -/
def shardFor (a : Aggregator ν) (k : BucketKey) : Shard ν := (a.shards[a.shardOf k]?).getD []

/-- The bucket stored for a key. -/
def lookup (a : Aggregator ν) (k : BucketKey) : Option (Stored ν) :=
  (a.shardFor k).find? fun b => b.key = k

/-- Every key lies in the shard that its hash selects, and nowhere twice. -/
structure WF (a : Aggregator ν) : Prop where
  nonempty : 0 < a.shards.length
  placed : ∀ {i s}, a.shards[i]? = some s → ∀ b ∈ s, a.shardOf b.key = i
  distinct : ∀ s ∈ a.shards, (s.map Stored.key).Nodup

namespace WF

variable {a : Aggregator ν}

theorem shardOf_lt (h : WF a) (k : BucketKey) : a.shardOf k < a.shards.length :=
  Nat.mod_lt _ h.nonempty

theorem getElem?_shardOf (h : WF a) (k : BucketKey) :
    a.shards[a.shardOf k]? = some (a.shardFor k) := by
  rw [shardFor, List.getElem?_eq_getElem (h.shardOf_lt k), Option.getD_some]

theorem shardFor_mem (h : WF a) (k : BucketKey) : a.shardFor k ∈ a.shards :=
  List.mem_of_getElem? (h.getElem?_shardOf k)

theorem mem_shardFor (h : WF a) {b : Stored ν} :
    b ∈ a.shardFor b.key ↔ b ∈ a.stored := by
  constructor
  · intro hb
    exact List.mem_flatten.mpr ⟨_, h.shardFor_mem _, hb⟩
  · intro hb
    obtain ⟨s, hs, hbs⟩ := List.mem_flatten.mp hb
    obtain ⟨i, hi⟩ := List.getElem?_of_mem hs
    have hplace : a.shardOf b.key = i := h.placed hi b hbs
    rw [shardFor, hplace, hi]
    exact hbs

theorem lookup_eq_some_iff (h : WF a) {k : BucketKey} {b : Stored ν} :
    a.lookup k = some b ↔ b ∈ a.stored ∧ b.key = k := by
  rw [lookup, find?_key_eq_some_iff (h.distinct _ (h.shardFor_mem k))]
  constructor
  · rintro ⟨hb, rfl⟩
    exact ⟨h.mem_shardFor.mp hb, rfl⟩
  · rintro ⟨hb, rfl⟩
    exact ⟨h.mem_shardFor.mpr hb, rfl⟩

/-- No key is stored twice, not even in two shards. -/
theorem keys_nodup (h : WF a) : (a.stored.map Stored.key).Nodup := by
  rw [stored, List.map_flatten, List.nodup_flatten]
  constructor
  · intro keys hkeys
    obtain ⟨s, hs, rfl⟩ := List.mem_map.mp hkeys
    exact h.distinct s hs
  · rw [List.pairwise_map, List.pairwise_iff_getElem]
    intro i j hi hj hij k hki hkj
    obtain ⟨b, hb, rfl⟩ := List.mem_map.mp hki
    obtain ⟨c, hc, hck⟩ := List.mem_map.mp hkj
    have hbi : a.shardOf b.key = i := h.placed (List.getElem?_eq_getElem hi) b hb
    have hcj : a.shardOf c.key = j := h.placed (List.getElem?_eq_getElem hj) c hc
    rw [hck, hbi] at hcj
    exact absurd hcj (Nat.ne_of_lt hij)

theorem find?_stored (h : WF a) (k : BucketKey) :
    (a.stored.find? fun b => b.key = k) = a.lookup k := by
  ext b
  rw [find?_key_eq_some_iff h.keys_nodup, h.lookup_eq_some_iff]

/-- The stored buckets of a key are the one that is found. -/
theorem filter_stored (h : WF a) (k : BucketKey) :
    (a.stored.filter fun b => b.key = k) = (a.lookup k).toList := by
  rw [filter_key_eq h.keys_nodup, h.find?_stored]

theorem empty (settings : Settings) (n : Nat) : WF (Aggregator.empty settings n : Aggregator ν) := by
  refine ⟨?_, ?_, ?_⟩
  · rw [Aggregator.empty, List.length_replicate]
    omega
  · intro i s hs b hb
    obtain ⟨-, rfl⟩ := List.mem_replicate.mp (List.mem_of_getElem? hs)
    cases hb
  · intro s hs
    obtain ⟨-, rfl⟩ := List.mem_replicate.mp hs
    exact List.nodup_nil

theorem close (h : WF a) : WF a.close := ⟨h.nonempty, h.placed, h.distinct⟩

end WF

@[simp] theorem lookup_empty (settings : Settings) (n : Nat) (k : BucketKey) :
    (empty settings n : Aggregator ν).lookup k = none := by
  rw [lookup, shardFor, empty, List.getElem?_replicate]
  split <;> rfl

@[simp] theorem lookup_close (a : Aggregator ν) (k : BucketKey) : a.close.lookup k = a.lookup k :=
  rfl

/-! ## One value -/

theorem shardOf_congr {a a' : Aggregator ν} (h : a'.shards.length = a.shards.length)
    (k : BucketKey) : a'.shardOf k = a.shardOf k := by
  rw [shardOf, shardOf, h]

namespace Shard

theorem find?_replace (k : BucketKey) (v : Value ν) (s : Shard ν) (k' : BucketKey) :
    (s.replace k v).find? (fun b => b.key = k') =
      (s.find? fun b => b.key = k').map fun b => if b.key = k then { b with value := v } else b := by
  rw [replace, List.find?_map]
  congr 2
  funext b
  by_cases hb : b.key = k <;> simp [Function.comp, hb]

theorem map_key_replace (k : BucketKey) (v : Value ν) (s : Shard ν) :
    (s.replace k v).map Stored.key = s.map Stored.key := by
  rw [replace, List.map_map]
  refine List.map_congr_left fun b _ => ?_
  by_cases hb : b.key = k <;> simp [hb]

end Shard

section Place

variable [Add ν] [LT ν] [DecidableLT ν]

/-- What is stored for a key once a value of it was accepted; `none` if it holds another kind. -/
def absorb? (k : BucketKey) (due : UInt64) (v : Value ν) : Option (Stored ν) → Option (Stored ν)
  | none => some ⟨k, due, v⟩
  | some b => (b.value.merge? v).map fun w => { b with value := w }

/-- The part of a merge that happens inside the shard of its key. -/
def place? (k : BucketKey) (due : UInt64) (v : Value ν) (a : Aggregator ν) :
    Option (Aggregator ν) :=
  (Shard.put? k due v (a.shardFor k)).map fun s => { a with shards := a.shards.set (a.shardOf k) s }

/-- A merge checks the switch, then the time, and then goes to the shard of the truncated key. -/
theorem merge_eq (now : UInt64) (k : BucketKey) (v : Value ν) (a : Aggregator ν) :
    a.merge now k v =
      if a.closed then (.shuttingDown, a)
      else if !a.settings.accepts k.timestamp now then (.invalidTimestamp, a)
      else
        let slot := a.settings.slot k
        match a.place? slot (a.settings.dueAt slot.timestamp now) v with
        | some a' => (.ok, a')
        | none => (.typeMismatch, a) := by
  unfold merge place? shardFor
  split
  · rfl
  · split
    · rfl
    · dsimp only [Settings.slot]
      split <;> rename_i h <;> rw [h] <;> rfl

/-- A merge is refused and changes nothing, or it places its value. -/
theorem merge_cases (now : UInt64) (k : BucketKey) (v : Value ν) (a : Aggregator ν) :
    (∃ o, o ≠ .ok ∧ a.merge now k v = (o, a)) ∨
      ∃ a', a.place? (a.settings.slot k) (a.settings.dueAt (a.settings.slot k).timestamp now) v =
        some a' ∧ a.merge now k v = (.ok, a') := by
  rw [merge_eq]
  split
  · exact Or.inl ⟨_, Outcome.noConfusion, rfl⟩
  · split
    · exact Or.inl ⟨_, Outcome.noConfusion, rfl⟩
    · dsimp only
      split
      · next a' h => exact Or.inr ⟨a', h, rfl⟩
      · exact Or.inl ⟨_, Outcome.noConfusion, rfl⟩

namespace Shard

/-- What a shard says of every key once a value was put into it. -/
theorem find?_put? {k : BucketKey} {due : UInt64} {v : Value ν} {s s' : Shard ν}
    (h : put? k due v s = some s') (k' : BucketKey) :
    s'.find? (fun b => b.key = k') =
      if k' = k then absorb? k due v (s.find? fun b => b.key = k)
      else s.find? fun b => b.key = k' := by
  unfold put? at h
  cases hf : s.find? fun b => b.key = k with
  | none =>
    rw [hf] at h
    obtain rfl := Option.some.inj h
    by_cases hk : k' = k
    · subst hk
      simp [absorb?]
    · simp [hk, Ne.symm hk]
  | some b =>
    rw [hf] at h
    obtain ⟨w, hw, rfl⟩ := Option.map_eq_some_iff.mp h
    have hb : b.key = k := by simpa using List.find?_some hf
    rw [find?_replace]
    by_cases hk : k' = k
    · subst hk
      simp [absorb?, hf, hw, hb]
    · rw [if_neg hk]
      cases hf' : s.find? fun b => b.key = k' with
      | none => rfl
      | some c =>
        have hc : c.key = k' := by simpa using List.find?_some hf'
        simp [hc, hk]

theorem put?_isSome {k : BucketKey} {due : UInt64} {v : Value ν} {s : Shard ν} :
    (put? k due v s).isSome = (absorb? k due v (s.find? fun b => b.key = k)).isSome := by
  unfold put?
  cases s.find? fun b => b.key = k <;> simp [absorb?]

theorem key_mem_put? {k : BucketKey} {due : UInt64} {v : Value ν} {s s' : Shard ν}
    (h : put? k due v s = some s') {b : Stored ν} (hb : b ∈ s') :
    b.key = k ∨ b.key ∈ s.map Stored.key := by
  unfold put? at h
  cases hf : s.find? fun b => b.key = k with
  | none =>
    rw [hf] at h
    obtain rfl := Option.some.inj h
    rcases List.mem_cons.mp hb with rfl | hb
    · exact Or.inl rfl
    · exact Or.inr (List.mem_map_of_mem hb)
  | some c =>
    rw [hf] at h
    obtain ⟨w, -, rfl⟩ := Option.map_eq_some_iff.mp h
    rw [← map_key_replace k w s]
    exact Or.inr (List.mem_map_of_mem hb)

theorem nodup_put? {k : BucketKey} {due : UInt64} {v : Value ν} {s s' : Shard ν}
    (h : put? k due v s = some s') (hs : (s.map Stored.key).Nodup) :
    (s'.map Stored.key).Nodup := by
  unfold put? at h
  cases hf : s.find? fun b => b.key = k with
  | none =>
    rw [hf] at h
    obtain rfl := Option.some.inj h
    rw [List.map_cons, List.nodup_cons]
    refine ⟨fun hk => ?_, hs⟩
    obtain ⟨b, hb, hbk⟩ := List.mem_map.mp hk
    have hne : ¬ b.key = k := by simpa using List.find?_eq_none.mp hf b hb
    exact hne hbk
  | some c =>
    rw [hf] at h
    obtain ⟨w, -, rfl⟩ := Option.map_eq_some_iff.mp h
    rwa [map_key_replace]

end Shard

variable {a a' : Aggregator ν} {k : BucketKey} {due : UInt64} {v : Value ν}

theorem place?_frame (h : a.place? k due v = some a') :
    a'.settings = a.settings ∧ a'.closed = a.closed ∧ a'.shards.length = a.shards.length := by
  obtain ⟨s, -, rfl⟩ := Option.map_eq_some_iff.mp h
  exact ⟨rfl, rfl, List.length_set⟩

theorem place?_isSome (a : Aggregator ν) (k : BucketKey) (due : UInt64) (v : Value ν) :
    (a.place? k due v).isSome = (absorb? k due v (a.lookup k)).isSome := by
  rw [place?, Option.isSome_map, Shard.put?_isSome, lookup]

/-- **One accepted value changes the bucket of its key** as `absorb?` says and no other. -/
theorem lookup_place (hwf : WF a) (h : a.place? k due v = some a') (k' : BucketKey) :
    a'.lookup k' = if k' = k then absorb? k due v (a.lookup k) else a.lookup k' := by
  obtain ⟨s, hs, rfl⟩ := Option.map_eq_some_iff.mp h
  have hshard : ∀ j, shardOf { a with shards := a.shards.set (a.shardOf k) s } j = a.shardOf j :=
    fun j => shardOf_congr List.length_set j
  by_cases hi : a.shardOf k' = a.shardOf k
  · have hput := Shard.find?_put? hs k'
    rw [lookup, shardFor, hshard, hi, List.getElem?_set_self (hwf.shardOf_lt k), Option.getD_some,
      hput, lookup, lookup, shardFor, shardFor, hi]
  · -- only the shard of `k` has changed
    have hk : k' ≠ k := fun he => hi (by rw [he])
    rw [if_neg hk, lookup, shardFor, hshard, List.getElem?_set_ne (Ne.symm hi)]
    rfl

theorem WF.place (hwf : WF a) (h : a.place? k due v = some a') : WF a' := by
  obtain ⟨s, hs, rfl⟩ := Option.map_eq_some_iff.mp h
  have hshard : ∀ j, shardOf { a with shards := a.shards.set (a.shardOf k) s } j = a.shardOf j :=
    fun j => shardOf_congr List.length_set j
  refine ⟨by rw [List.length_set]; exact hwf.nonempty, ?_, ?_⟩
  · intro i s' hi b hb
    rw [hshard]
    by_cases hik : a.shardOf k = i
    · subst hik
      rw [List.getElem?_set_self (hwf.shardOf_lt k)] at hi
      obtain rfl := Option.some.inj hi
      rcases Shard.key_mem_put? hs hb with he | he
      · rw [he]
      · -- a bucket with this key was in the shard before
        obtain ⟨c, hc, hck⟩ := List.mem_map.mp he
        rw [← hck]
        exact hwf.placed (hwf.getElem?_shardOf k) c hc
    · rw [List.getElem?_set_ne hik] at hi
      exact hwf.placed hi b hb
  · intro s' hs'
    rcases List.mem_or_eq_of_mem_set hs' with hs' | rfl
    · exact hwf.distinct s' hs'
    · exact Shard.nodup_put? hs (hwf.distinct _ (hwf.shardFor_mem k))

end Place

/-! ## Drains -/

section Drain

variable {a : Aggregator ν} (leaves : Stored ν → Bool)

theorem stored_drain (a : Aggregator ν) :
    (a.drain leaves).2.stored = a.stored.filter fun b => !leaves b := by
  simp only [drain, stored, Shard.take, List.filter_flatten]

theorem drain_fst (a : Aggregator ν) :
    (a.drain leaves).1 = (a.stored.filter leaves).map (release a.settings) := by
  simp only [drain, stored, Shard.take, List.filter_flatten, List.map_flatten, List.map_map,
    List.flatMap_def]
  rfl

theorem WF.drain (h : WF a) : WF (a.drain leaves).2 := by
  have hlen : (a.drain leaves).2.shards.length = a.shards.length := List.length_map _
  refine ⟨by rw [hlen]; exact h.nonempty, ?_, ?_⟩
  · intro i s hi b hb
    rw [Aggregator.drain, List.getElem?_map] at hi
    obtain ⟨s, hs, rfl⟩ := Option.map_eq_some_iff.mp hi
    rw [shardOf_congr hlen]
    exact h.placed hs b (List.mem_of_mem_filter hb)
  · intro s hs
    obtain ⟨s, hs', rfl⟩ := List.mem_map.mp hs
    exact (h.distinct s hs').sublist (List.filter_sublist.map _)

/-- **A drain removes the buckets of its class** and leaves every other bucket as it is. -/
theorem lookup_drain (h : WF a) (k : BucketKey) :
    (a.drain leaves).2.lookup k = (a.lookup k).filter fun b => !leaves b := by
  rw [← (h.drain leaves).find?_stored, ← h.find?_stored, stored_drain,
    find?_key_filter h.keys_nodup]

/-- The returned buckets of a key: the stored one if it leaves. -/
theorem filter_drain (h : WF a) (k : BucketKey) :
    ((a.drain leaves).1.filter fun b => b.key = k) =
      (((a.lookup k).filter leaves).map (release a.settings)).toList := by
  have hnodup : ((a.stored.filter leaves).map Stored.key).Nodup :=
    h.keys_nodup.sublist (List.filter_sublist.map _)
  have hkey : (fun b : Bucket ν => decide (b.key = k)) ∘ release a.settings =
      fun b : Stored ν => decide (b.key = k) := rfl
  rw [drain_fst, List.filter_map, hkey, filter_key_eq hnodup, find?_key_filter h.keys_nodup,
    h.find?_stored, Option.toList_map]

theorem nodup_drain (h : WF a) : ((a.drain leaves).1.map Bucket.key).Nodup := by
  rw [drain_fst, List.map_map]
  exact h.keys_nodup.sublist (List.filter_sublist.map _)

end Drain

end Telemetry.Aggregator

import Mathlib.Algebra.GroupWithZero.Nat
import Telemetry.Flush
import Telemetry.Proofs.Batch.Grouping
import Telemetry.Proofs.Fnv

/-!
# What a dispatch hands over

The batches are gathered bucket by bucket in a map from projects to batches (`gather`), which comes to
one batch for each project with its buckets in their order (`gather_eq_group`).  The batches are submitted
one by one, and the answer is the number of those that the pool has accepted (`dispatch_apportions`).
-/

namespace Telemetry

/-! ## Partitions -/

/-- **The partition of a project in numbers**, a function of the setting and the project alone. -/
theorem Scope.toNat_partition? (partitions : Option UInt64) (s : Scope) :
    (s.partition? partitions).map UInt64.toNat = partitions.map fun n =>
      if n = 0 then 0
      else Fnv.fnv1a64 (Fnv.littleEndian s.org.toNat ++ Fnv.littleEndian s.project.toNat) % n.toNat := by
  rw [partition?, Option.map_map]
  congr 1
  funext n
  rw [Function.comp_apply]
  split
  · rfl
  · rw [UInt64.toNat_mod, Fnv.toNat_hash64, List.map_append, Fnv.toNat_word, Fnv.toNat_word]

/-- Project 42 of organization 1 among 128 partitions. -/
example : Scope.partition? (some 128) ⟨1, 42⟩ = some 78 := by decide

theorem Scope.partition?_lt {n i : UInt64} {s : Scope} (hn : n ≠ 0) (h : s.partition? (some n) = some i) :
    i < n := by
  rw [partition?, Option.map_some, if_neg hn] at h
  obtain rfl := Option.some.inj h
  exact UInt64.mod_lt _ (UInt64.pos_iff_ne_zero.mpr hn)

/-- A map that is made of its keys. -/
theorem Ordered.get?_map_self {κ ν : Type} [DecidableEq κ] (f : κ → ν) (k : κ) (keys : List κ) :
    get? k (keys.map fun k => (k, f k)) = if k ∈ keys then some (f k) else none := by
  induction keys with
  | nil => rfl
  | cons k' rest ih =>
    rw [List.map_cons, get?, ih]
    by_cases h : k = k'
    · simp [h]
    · simp [h]

namespace Batch

variable {partitions : Option UInt64} {buckets : List (Bucket Float)} {s : Scope}

/-! ## Bucket by bucket -/

/-- Puts a bucket behind the others of its project, whose batch begins with the first of them. -/
def put (partitions : Option UInt64) (batches : Entries Scope Batch) (x : Bucket Float) :
    Entries Scope Batch :=
  let b := (Ordered.get? x.key.scope batches).getD
    ⟨x.key.scope, x.key.scope.partition? partitions, []⟩
  Ordered.insert x.key.scope { b with buckets := b.buckets ++ [x] } batches

/-- The batches of some buckets, ascending by project. -/
def gather (partitions : Option UInt64) (buckets : List (Bucket Float)) : List Batch :=
  (buckets.foldl (put partitions) []).map Prod.snd

theorem sorted_foldl_put (partitions : Option UInt64) (buckets : List (Bucket Float)) :
    Ordered.Sorted (buckets.foldl (put partitions) []) := by
  refine List.foldlRecOn buckets _ Ordered.sorted_nil fun batches h x _ => ?_
  exact h.insert

/-- The map has the buckets of each project that has come, in the order in which they came. -/
theorem get?_foldl_put (partitions : Option UInt64) (buckets : List (Bucket Float)) (s : Scope) :
    Ordered.get? s (buckets.foldl (put partitions) []) =
      if (buckets.filter fun x => x.key.scope = s) = [] then none
      else some ⟨s, s.partition? partitions, buckets.filter fun x => x.key.scope = s⟩ := by
  induction buckets using List.reverseRecOn with
  | nil => rfl
  | append_singleton before x ih =>
    rw [List.foldl_append, List.foldl_cons, List.foldl_nil, List.filter_append]
    by_cases hscope : x.key.scope = s
    · subst hscope
      rw [put, ih, Ordered.get?_insert_self]
      split
      · next hnone => simp [hnone]
      · simp
    · rw [put, Ordered.get?_insert_of_ne (Ne.symm hscope), ih]
      simp [hscope]

theorem pairwise_scopes (buckets : List (Bucket Float)) : (scopes buckets).Pairwise (· < ·) :=
  Ordered.sorted_iff_keys.mp Ordered.sorted_ofList

/-- **The loop makes one batch for each project**, each with its buckets in their order. -/
theorem gather_eq_group (partitions : Option UInt64) (buckets : List (Bucket Float)) :
    gather partitions buckets = group partitions buckets := by
  let made : Scope → Batch := fun s =>
    ⟨s, s.partition? partitions, buckets.filter fun x => x.key.scope = s⟩
  have hsorted : Ordered.Sorted ((scopes buckets).map fun s => (s, made s)) := by
    rw [Ordered.sorted_iff_keys, List.map_map]
    simpa [Function.comp_def] using pairwise_scopes buckets
  have hmap : buckets.foldl (put partitions) [] = (scopes buckets).map fun s => (s, made s) := by
    refine (sorted_foldl_put partitions buckets).ext hsorted fun s => ?_
    rw [get?_foldl_put, Ordered.get?_map_self]
    simp only [mem_scopes_iff_filter, ite_not]
    rfl
  rw [gather, hmap, List.map_map]
  rfl

/-! ## What the batches hold -/

/-- **No bucket is lost or doubled.** -/
theorem flatMap_buckets_perm (partitions : Option UInt64) (buckets : List (Bucket Float)) :
    ((group partitions buckets).flatMap Batch.buckets).Perm buckets := by
  refine List.perm_iff_count.mpr fun x => ?_
  rw [List.count_eq_length_filter, List.count_eq_length_filter]
  congr 1
  refine filter_buckets_group (s := x.key.scope) partitions buckets fun b hb => ?_
  rw [beq_iff_eq.mp hb]

theorem sum_length_group (partitions : Option UInt64) (buckets : List (Bucket Float)) :
    ((group partitions buckets).map fun b => b.buckets.length).sum = buckets.length := by
  rw [← (flatMap_buckets_perm partitions buckets).length_eq, List.length_flatMap]

/-- The batches of some buckets: one for each project. -/
structure Apportions (partitions : Option UInt64) (buckets : List (Bucket Float))
    (batches : List Batch) : Prop where
  /-- No two batches are of one project, and they come in the order of their projects. -/
  ascending : (batches.map Batch.scope).Pairwise (· < ·)
  distinct : (batches.map Batch.scope).Nodup
  projects : ∀ s, s ∈ batches.map Batch.scope ↔ ∃ x ∈ buckets, x.key.scope = s
  nonempty : ∀ b ∈ batches, b.buckets ≠ []
  /-- A batch has the buckets of its project in their order. -/
  inOrder : ∀ b ∈ batches, b.buckets = buckets.filter fun x => x.key.scope = b.scope
  rearranged : (batches.flatMap Batch.buckets).Perm buckets
  partition : ∀ b ∈ batches, b.partition.map UInt64.toNat = partitions.map fun n =>
    if n = 0 then 0
    else Fnv.fnv1a64 (Fnv.littleEndian b.scope.org.toNat ++ Fnv.littleEndian b.scope.project.toNat) %
      n.toNat
  partition_lt : ∀ b ∈ batches, ∀ n, partitions = some n → n ≠ 0 → ∀ i ∈ b.partition, i < n
  /-- Other buckets of the project have the same partition, whenever they are dispatched. -/
  stable : ∀ more, ∀ b ∈ batches, ∀ c ∈ gather partitions more, b.scope = c.scope →
    b.partition = c.partition
  keys : (buckets.map Bucket.key).Nodup →
    (batches.flatMap fun b => b.buckets.map Bucket.key).Nodup

theorem apportions_group (partitions : Option UInt64) (buckets : List (Bucket Float)) :
    Apportions partitions buckets (group partitions buckets) := by
  have hscopes : (group partitions buckets).map Batch.scope = Batch.scopes buckets := by
    rw [group, List.map_map]
    exact List.map_id _
  refine ⟨?_, ?_, fun s => ?_, fun b hb => (mem_group hb).1, fun b hb => (mem_group hb).2.2,
    flatMap_buckets_perm partitions buckets, fun b hb => ?_, fun b hb n hn hpos i hi => ?_,
    fun more b hb c hc hscope => ?_, fun hkeys => ?_⟩
  · rw [hscopes]
    exact pairwise_scopes buckets
  · rw [hscopes]
    exact nodup_scopes buckets
  · rw [hscopes]
    exact mem_scopes
  · rw [(mem_group hb).2.1]
    exact Scope.toNat_partition? partitions b.scope
  · subst hn
    rw [(mem_group hb).2.1] at hi
    exact Scope.partition?_lt hpos hi
  · rw [gather_eq_group] at hc
    rw [(mem_group hb).2.1, (mem_group hc).2.1, hscope]
  · rw [← List.map_flatMap]
    exact ((flatMap_buckets_perm partitions buckets).map Bucket.key).nodup_iff.mpr hkeys

end Batch

/-! ## Submissions -/

namespace Flush

variable {σ : Type}

/-- A flush that some batches were submitted to, of which a pool takes all or none. -/
theorem foldl_submit (batches : List Batch) (n : Nat) (f : Flush σ) :
    ∃ accepted refused, accepted ++ refused = batches ∧
      (if f.pool.accepting then refused = [] else accepted = []) ∧
      batches.foldl (fun (n, f) b =>
        let (f, accepted) := f.submit b
        (if accepted then n + 1 else n, f)) (n, f) =
        (n + accepted.length, { f with
          pool := { f.pool with queued := f.pool.queued ++ accepted }
          bucketsFlushed := f.bucketsFlushed + (batches.map fun b => b.buckets.length).sum
          batchesFailed := f.batchesFailed + refused.length }) := by
  induction batches generalizing n f with
  | nil => exact ⟨[], [], rfl, by simp, by simp⟩
  | cons b rest ih =>
    rw [List.foldl_cons]
    cases hopen : f.pool.accepting with
    | true =>
      obtain ⟨accepted, refused, happend, hnone, hfold⟩ := ih (n + 1) (f.submit b).1
      simp only [submit, Pool.submit, hopen, ↓reduceIte] at hnone hfold ⊢
      refine ⟨b :: accepted, refused, by rw [List.cons_append, happend], hnone, hfold.trans ?_⟩
      simp [Nat.add_assoc, Nat.add_comm 1]
    | false =>
      obtain ⟨accepted, refused, happend, hnone, hfold⟩ := ih n (f.submit b).1
      simp only [submit, Pool.submit, hopen, Bool.false_eq_true, ↓reduceIte] at hnone hfold ⊢
      subst hnone
      refine ⟨[], b :: refused, by rw [← happend]; rfl, rfl, hfold.trans ?_⟩
      simp [Nat.add_assoc, Nat.add_comm 1]

/-- **A dispatch hands over one batch for each project**, with its buckets in their order and its
partition, and answers how many the pool has accepted: all of them if it is open, none if it is closed. -/
theorem dispatch_apportions (f : Flush σ) (partitions : Option UInt64) (buckets : List (Bucket Float)) :
    ∃ accepted refused, Batch.gather partitions buckets = accepted ++ refused ∧
      (if f.pool.accepting then refused = [] else accepted = []) ∧
      f.dispatch partitions buckets = (accepted.length, { f with
        pool := { f.pool with queued := f.pool.queued ++ accepted }
        bucketsFlushed := f.bucketsFlushed + buckets.length
        batchesFailed := f.batchesFailed + refused.length }) ∧
      Batch.Apportions partitions buckets (accepted ++ refused) := by
  obtain ⟨accepted, refused, happend, hnone, hfold⟩ :=
    foldl_submit (Batch.group partitions buckets) 0 f
  refine ⟨accepted, refused, ?_, hnone, ?_, ?_⟩
  · rw [Batch.gather_eq_group, happend]
  · rw [dispatch, hfold, Nat.zero_add, Batch.sum_length_group]
  · rw [happend]
    exact Batch.apportions_group partitions buckets

end Flush

end Telemetry

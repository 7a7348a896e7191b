import Mathlib.Data.Finmap
import Telemetry.Proofs.Aggregator.Run

/-!
# Sharding cannot be seen

`Flat` is an aggregator without shards: one finite map from keys to due times and values, in which a
merge that is not accepted leaves the whole map alone.  `flatten` forgets how the buckets of an
aggregator are spread over its shards.  Serving a request and flattening commute
(`flatten_serve`), so aggregators with any two numbers of shards answer every run alike, up to the
order of the buckets inside one drain (`run_shards_invisible`).
-/

namespace Telemetry.Aggregator

variable {ν : Type}

/-- What is stored, by key: when it is due, and its value. -/
abbrev Table (ν : Type) := Finmap fun _ : BucketKey => UInt64 × Value ν

/-- An answer in which the buckets of a drain have no order. -/
inductive Seen (ν : Type) where
  | outcome (o : Outcome)
  | buckets (bs : Multiset (Bucket ν))
  | count (n : Nat)
  | closed

def Answer.seen : Answer ν → Seen ν
  | .outcome o => .outcome o
  | .buckets bs => .buckets bs
  | .count n => .count n
  | .closed => .closed

namespace Table

/-- The entries of a class. -/
def select (p : UInt64 → Bool) (t : Table ν) : Table ν :=
  ⟨t.entries.filter fun e => p e.2.1, by
    rw [← Multiset.nodup_keys]
    exact Multiset.nodup_of_le (Multiset.map_le_map (Multiset.filter_le _ _))
      (Multiset.nodup_keys.mpr t.nodupKeys)⟩

/-- Merges a value into the entry of a key; `none` if it holds another kind of value. -/
def put? [Add ν] [LT ν] [DecidableLT ν] (k : BucketKey) (due : UInt64) (v : Value ν)
    (t : Table ν) : Option (Table ν) :=
  match t.lookup k with
  | none => some (t.insert k (due, v))
  | some (first, old) => (old.merge? v).map fun new => t.insert k (first, new)

end Table

/-! ## The flat aggregator -/

structure Flat (ν : Type) where
  settings : Settings
  table : Table ν
  closed : Bool

namespace Flat

def empty (settings : Settings) : Flat ν := ⟨settings, ∅, false⟩

/-- Removes the entries of a class and returns them as buckets. -/
def drain (leaves : UInt64 → Bool) (f : Flat ν) : Multiset (Bucket ν) × Flat ν :=
  ((f.table.select leaves).entries.map fun e => ⟨e.1, f.settings.interval, e.2.2⟩,
    { f with table := f.table.select fun due => !leaves due })

variable [Add ν] [LT ν] [DecidableLT ν]

def merge (now : UInt64) (key : BucketKey) (value : Value ν) (f : Flat ν) : Outcome × Flat ν :=
  if f.closed then (.shuttingDown, f)
  else if !f.settings.accepts key.timestamp now then (.invalidTimestamp, f)
  else
    let slot := f.settings.slot key
    match f.table.put? slot (f.settings.dueAt slot.timestamp now) value with
    | some table => (.ok, { f with table })
    | none => (.typeMismatch, f)

def serve (f : Flat ν) : Request ν → Seen ν × Flat ν
  | .merge now key value => (f.merge now key value).map .outcome id
  | .mergePoint now scope p =>
    (f.merge now ⟨scope, p.name, p.tags, p.timestamp⟩ p.value).map .outcome id
  | .mergeBucket now b => (f.merge now b.key b.value).map .outcome id
  | .drainDue now => (f.drain fun due => due ≤ now).map .buckets id
  | .drainAll => (f.drain fun _ => true).map .buckets id
  | .close => (.closed, { f with closed := true })
  | .size => (.count f.table.entries.card, f)

def run (f : Flat ν) : List (Request ν) → List (Seen ν) × Flat ν
  | [] => ([], f)
  | r :: rest =>
    let (seen, f) := f.serve r
    let (more, f) := f.run rest
    (seen :: more, f)

theorem merge_refused {now : UInt64} {key : BucketKey} {value : Value ν} {f : Flat ν}
    (h : (f.merge now key value).1 ≠ .ok) : (f.merge now key value).2 = f := by
  unfold merge at h ⊢
  split
  · rfl
  · rename_i hc
    rw [if_neg hc] at h
    split
    · rfl
    · rename_i ha
      rw [if_neg ha] at h
      dsimp only at h ⊢
      split
      · rename_i hp
        rw [hp] at h
        exact absurd rfl h
      · rfl

end Flat

/-! ## Forgetting the shards -/

section Flatten

variable {a : Aggregator ν}

/-- A stored bucket as an entry of a table. -/
def Stored.entry (b : Stored ν) : Sigma fun _ : BucketKey => UInt64 × Value ν :=
  ⟨b.key, b.dueAt, b.value⟩

theorem nodupKeys_entries (h : WF a) : (a.stored.map Stored.entry).NodupKeys := by
  rw [List.NodupKeys, List.keys, List.map_map]
  exact h.keys_nodup

/-- The stored buckets without their places. -/
def table (a : Aggregator ν) (h : WF a) : Table ν :=
  ⟨(a.stored.map Stored.entry : List _), Multiset.coe_nodupKeys.mpr (nodupKeys_entries h)⟩

def flatten (a : Aggregator ν) (h : WF a) : Flat ν := ⟨a.settings, a.table h, a.closed⟩

theorem dlookup_entries (l : List (Stored ν)) (k : BucketKey) :
    (l.map Stored.entry).dlookup k =
      (l.find? fun b => b.key = k).map fun b => (b.dueAt, b.value) := by
  induction l with
  | nil => rfl
  | cons b rest ih =>
    by_cases hb : b.key = k
    · subst hb
      simp [Stored.entry]
    · rw [List.map_cons, List.dlookup_cons_ne _ _ (Ne.symm hb), ih]
      simp [hb]

theorem lookup_table (h : WF a) (k : BucketKey) :
    (a.table h).lookup k = (a.lookup k).map fun b => (b.dueAt, b.value) := by
  rw [← h.find?_stored, ← dlookup_entries]
  exact Finmap.lookup_toFinmap k ⟨a.stored.map Stored.entry, nodupKeys_entries h⟩

theorem select_table (h : WF a) (p : UInt64 → Bool) :
    ((a.table h).select p).entries =
      ((a.stored.filter fun b => p b.dueAt).map Stored.entry : List _) := by
  change Multiset.filter _ (Multiset.ofList (a.stored.map Stored.entry)) = _
  rw [Multiset.filter_coe, List.filter_map]
  refine congrArg (fun l => Multiset.ofList (l.map Stored.entry)) (List.filter_congr fun b _ => ?_)
  simp [Stored.entry]

theorem flatten_empty (s : Settings) (n : Nat) :
    flatten (empty s n : Aggregator ν) (WF.empty s n) = Flat.empty s := by
  have htable : table (empty s n : Aggregator ν) (WF.empty s n) = ∅ := by
    refine Finmap.ext_lookup fun k => ?_
    rw [lookup_table, lookup_empty, Finmap.lookup_empty]
    rfl
  rw [flatten, htable]
  rfl

/-- **Draining and flattening commute.** -/
theorem flatten_drain (h : WF a) (p : UInt64 → Bool) :
    (flatten a h).drain p =
      (((a.drain fun b => p b.dueAt).1 : Multiset (Bucket ν)),
        flatten (a.drain fun b => p b.dueAt).2 (h.drain _)) := by
  have hout : ((a.table h).select p).entries.map
      (fun e => (⟨e.1, a.settings.interval, e.2.2⟩ : Bucket ν)) =
        ((a.drain fun b => p b.dueAt).1 : Multiset (Bucket ν)) := by
    rw [select_table, drain_fst, Multiset.map_coe, List.map_map]
    rfl
  have hrest : (a.table h).select (fun due => !p due) =
      table (a.drain fun b => p b.dueAt).2 (h.drain _) := by
    refine Finmap.ext ?_
    change _ = Multiset.ofList ((a.drain fun b => p b.dueAt).2.stored.map Stored.entry)
    rw [select_table, stored_drain]
  rw [Flat.drain, flatten, flatten]
  exact Prod.ext hout (by rw [hrest]; rfl)

section Merge

variable [Add ν] [LT ν] [DecidableLT ν]

theorem put?_table {a' : Aggregator ν} (h : WF a) {k : BucketKey} {due : UInt64} {v : Value ν}
    (hp : a.place? k due v = some a') :
    (a.table h).put? k due v = some (a'.table (h.place hp)) := by
  obtain ⟨b, hb⟩ : ∃ b, absorb? k due v (a.lookup k) = some b := by
    rw [← Option.isSome_iff_exists, ← place?_isSome, hp]
    rfl
  have hinsert : a'.table (h.place hp) = (a.table h).insert k (b.dueAt, b.value) := by
    refine Finmap.ext_lookup fun k' => ?_
    rw [lookup_table, lookup_place h hp]
    by_cases hk : k' = k
    · subst hk
      rw [if_pos rfl, hb, Finmap.lookup_insert]
      rfl
    · rw [if_neg hk, Finmap.lookup_insert_of_ne _ hk, lookup_table]
  rw [Table.put?, lookup_table, hinsert]
  cases hl : a.lookup k with
  | none =>
    rw [hl] at hb
    obtain rfl := Option.some.inj hb
    rfl
  | some c =>
    rw [hl] at hb
    obtain ⟨w, hw, rfl⟩ := Option.map_eq_some_iff.mp hb
    simp only [Option.map_some, hw]

theorem put?_table_none (h : WF a) {k : BucketKey} {due : UInt64} {v : Value ν}
    (hp : a.place? k due v = none) : (a.table h).put? k due v = none := by
  have hnone := place?_isSome a k due v
  rw [hp] at hnone
  rw [Table.put?, lookup_table]
  cases hl : a.lookup k with
  | none =>
    rw [hl] at hnone
    cases hnone
  | some c =>
    rw [hl, absorb?, Option.isSome_map] at hnone
    have hm : c.value.merge? v = none := by simpa using hnone.symm
    simp only [Option.map_some, hm, Option.map_none]

/-- **Merging and flattening commute.** -/
theorem flatten_merge (h : WF a) (now : UInt64) (key : BucketKey) (v : Value ν) :
    (flatten a h).merge now key v =
      ((a.merge now key v).1, flatten (a.merge now key v).2 (h.merge now key v)) := by
  -- `flatten` takes a proof about the aggregator, which no rewriting of the merge can pass
  have hend : ∀ {o : Outcome} {a' : Aggregator ν} (hw : WF a'), a.merge now key v = (o, a') →
      (o, flatten a' hw) =
        ((a.merge now key v).1, flatten (a.merge now key v).2 (h.merge now key v)) := by
    intro o a' hw he
    simp only [he]
  have hmerge := merge_eq now key v a
  unfold Flat.merge
  by_cases hc : a.closed = true
  · rw [if_pos hc] at hmerge
    rw [if_pos (show (flatten a h).closed = true from hc)]
    exact hend h hmerge
  · rw [if_neg hc] at hmerge
    rw [if_neg (show ¬ (flatten a h).closed = true from hc)]
    by_cases ha : (!a.settings.accepts key.timestamp now) = true
    · rw [if_pos ha] at hmerge
      rw [if_pos (show (!(flatten a h).settings.accepts key.timestamp now) = true from ha)]
      exact hend h hmerge
    · rw [if_neg ha] at hmerge
      rw [if_neg (show ¬ (!(flatten a h).settings.accepts key.timestamp now) = true from ha)]
      dsimp only at hmerge
      change (match (a.table h).put? (a.settings.slot key)
          (a.settings.dueAt (a.settings.slot key).timestamp now) v with
        | some table => (Outcome.ok, (⟨a.settings, table, a.closed⟩ : Flat ν))
        | none => (Outcome.typeMismatch, flatten a h)) = _
      cases hp : a.place? (a.settings.slot key)
          (a.settings.dueAt (a.settings.slot key).timestamp now) v with
      | some a' =>
        rw [hp] at hmerge
        have hflat : flatten a' (h.place hp) = ⟨a.settings, a'.table (h.place hp), a.closed⟩ := by
          rw [flatten, (place?_frame hp).1, (place?_frame hp).2.1]
        rw [← hend (h.place hp) hmerge, put?_table h hp, hflat]
      | none =>
        rw [hp] at hmerge
        rw [← hend h hmerge, put?_table_none h hp]

/-- **Serving and flattening commute**, up to the order of drained buckets. -/
theorem flatten_serve (h : WF a) (r : Request ν) :
    (flatten a h).serve r = ((a.serve r).1.seen, flatten (a.serve r).2 (h.serve r)) := by
  cases r with
  | merge now key v =>
    rw [Flat.serve, flatten_merge]
    rfl
  | mergePoint now scope p =>
    rw [Flat.serve, flatten_merge]
    rfl
  | mergeBucket now b =>
    rw [Flat.serve, flatten_merge]
    rfl
  | drainDue now =>
    rw [Flat.serve, flatten_drain]
    rfl
  | drainAll =>
    rw [Flat.serve, flatten_drain]
    rfl
  | close => rfl
  | size =>
    have hcard : (a.table h).entries.card = a.size := List.length_map _
    rw [Flat.serve, flatten, hcard]
    rfl

theorem flatten_run (h : WF a) (requests : List (Request ν)) :
    (flatten a h).run requests =
      ((a.run requests).1.map fun e => e.2.seen, flatten (a.run requests).2 (h.run requests)) := by
  induction requests generalizing a with
  | nil => rfl
  | cons r rest ih =>
    rw [Flat.run, flatten_serve h r]
    dsimp only
    rw [ih (h.serve r)]
    rfl

/-- What a run on some number of shards lets see. -/
def visible (s : Settings) (shards : Nat) (requests : List (Request ν)) : List (Seen ν) :=
  ((empty s shards).run requests).1.map fun e => e.2.seen

/-- **Sharding cannot be seen.**  Two aggregators that differ in the number of their shards answer
every run alike, and as the flat map does; in the end they hold what the flat map holds; and in the
flat map a merge that is not accepted changes nothing. -/
theorem run_shards_invisible (s : Settings) (n m : Nat) (requests : List (Request ν)) :
    visible s n requests = visible s m requests ∧
      visible s n requests = ((Flat.empty s).run requests).1 ∧
      (((empty s n).run requests).2.stored.map Stored.entry : Multiset _) =
        ((Flat.empty s).run requests).2.table.entries ∧
      ∀ (f : Flat ν) (now : UInt64) (key : BucketKey) (v : Value ν),
        (f.merge now key v).1 ≠ .ok → (f.merge now key v).2 = f := by
  have hflat : ∀ k, (Flat.empty s : Flat ν).run requests =
      (visible s k requests, flatten ((empty s k).run requests).2 ((WF.empty s k).run requests)) := by
    intro k
    rw [← flatten_empty s k]
    exact flatten_run (WF.empty s k) requests
  refine ⟨?_, ?_, ?_, fun f now key v => Flat.merge_refused⟩
  · exact (congrArg Prod.fst (hflat n)).symm.trans (congrArg Prod.fst (hflat m))
  · exact (congrArg Prod.fst (hflat n)).symm
  · rw [hflat n]
    rfl

end Merge

end Flatten

end Telemetry.Aggregator

import Telemetry.Proofs.Aggregator.Run
import Telemetry.Proofs.Metric.Merging

/-!
# Classes of keys

Take any class of keys.  What its buckets held and what was submitted to it merge into what was
returned from it and what its buckets hold, however the drains cut a run (`run_merges`).  A placement
merges two values at most, and a drain none.
-/

namespace Telemetry.Aggregator

open Value

variable {ν : Type} (C : BucketKey → Bool)

/-- The values that are stored in a class. -/
def contents (a : Aggregator ν) : Multiset (Value ν) :=
  ((a.stored : Multiset (Stored ν)).filter fun b => C b.key).map Stored.value

/-- The value that is stored for a key, if there is one. -/
def held (a : Aggregator ν) (k : BucketKey) : Multiset (Value ν) :=
  ((a.lookup k).map Stored.value).toList

/-- The value that a request submits to a class. -/
def Request.submitted (s : Settings) (r : Request ν) : Multiset (Value ν) :=
  match r.submission? with
  | some (k, v) => if C (s.slot k) then {v} else 0
  | none => 0

/-- The values that an answer returns from a class. -/
def Answer.returned : Answer ν → Multiset (Value ν)
  | .buckets bs => ((bs : Multiset (Bucket ν)).filter fun b => C b.key).map Bucket.value
  | .outcome _ | .count _ | .closed => 0

/-- The answer refuses nothing. -/
def Answer.Accepting : Answer ν → Prop
  | .outcome o => o = .ok
  | .buckets _ | .count _ | .closed => True

instance (answer : Answer ν) : Decidable answer.Accepting := by
  cases answer
  all_goals
    unfold Answer.Accepting
    infer_instance

theorem sum_map_ite_singleton {α β : Type} (l : List α) (p : α → Bool) (f : α → β) :
    (l.map fun x => if p x then ({f x} : Multiset β) else 0).sum = ((l.filter p).map f : List β) := by
  induction l with
  | nil => rfl
  | cons x rest ih =>
    rw [List.map_cons, List.sum_cons, ih]
    by_cases hx : p x
    · rw [if_pos hx, List.filter_cons_of_pos hx]
      rfl
    · rw [if_neg hx, List.filter_cons_of_neg hx, zero_add]

theorem contents_empty (s : Settings) (shards : Nat) :
    contents C (empty s shards : Aggregator ν) = 0 := by
  simp [contents, stored, empty]

/-- The value of a key that is stored in a class, and the others. -/
theorem contents_eq {a : Aggregator ν} (h : WF a) {k : BucketKey} (hk : C k = true) :
    contents C a = a.held k + contents (fun k' => C k' && k' ≠ k) a := by
  have hown : ((a.stored : Multiset (Stored ν)).filter fun b => b.key = k ∧ C b.key = true) =
      ((a.lookup k).toList : Multiset (Stored ν)) := by
    rw [← h.filter_stored k, ← Multiset.filter_coe]
    refine Multiset.filter_congr fun b _ => ?_
    constructor
    · exact And.left
    · intro hb
      exact ⟨hb, hb ▸ hk⟩
  have hothers : ((a.stored : Multiset (Stored ν)).filter fun b => ¬ b.key = k ∧ C b.key = true) =
      (a.stored : Multiset (Stored ν)).filter fun b => (C b.key && b.key ≠ k) = true := by
    refine Multiset.filter_congr fun b _ => ?_
    simp [and_comm]
  have hsplit := Multiset.filter_add_not (fun b : Stored ν => b.key = k)
    ((a.stored : Multiset (Stored ν)).filter fun b => C b.key)
  rw [Multiset.filter_filter, Multiset.filter_filter, hown, hothers] at hsplit
  rw [contents, ← hsplit, Multiset.map_add, held]
  cases a.lookup k <;> rfl

theorem contents_key {a : Aggregator ν} (h : WF a) (k : BucketKey) :
    contents (fun k' => k' = k) a = a.held k := by
  rw [contents_eq _ h (decide_eq_true rfl), add_eq_left, contents, Multiset.map_eq_zero,
    Multiset.filter_eq_nil]
  simp

theorem WF.held_eq {a : Aggregator ν} (h : WF a) {b : Stored ν} (hb : b ∈ a.stored) :
    a.held b.key = {b.value} := by
  rw [held, h.lookup_eq_some_iff.mpr ⟨hb, rfl⟩]
  rfl

/-- A key is stored if something is held for it. -/
theorem WF.mem_keys_iff {a : Aggregator ν} (h : WF a) {k : BucketKey} :
    k ∈ a.stored.map Stored.key ↔ a.held k ≠ 0 := by
  constructor
  · intro hk
    obtain ⟨b, hb, rfl⟩ := List.mem_map.mp hk
    rw [h.held_eq hb]
    exact Multiset.singleton_ne_zero _
  · intro hk
    cases hl : a.lookup k with
    | none =>
      rw [held, hl] at hk
      exact absurd rfl hk
    | some b =>
      obtain ⟨hb, rfl⟩ := h.lookup_eq_some_iff.mp hl
      exact List.mem_map_of_mem hb

/-! ## One value -/

section Place

variable [Add ν] [LT ν] [DecidableLT ν] {a a' : Aggregator ν} {k : BucketKey} {due : UInt64}
  {v : Value ν}

/-- A placement leaves a class alone that its key is not in. -/
theorem contents_place_of_not (h : WF a) (hplace : a.place? k due v = some a') (hk : C k = false) :
    contents C a' = contents C a := by
  have hnodup : ∀ {a : Aggregator ν}, WF a →
      ((a.stored : Multiset (Stored ν)).filter fun b => C b.key).Nodup := by
    intro a h
    exact Multiset.Nodup.filter _ (Multiset.coe_nodup.mpr (List.Nodup.of_map _ h.keys_nodup))
  -- the shards may list their buckets in another order, so the two are compared bucket by bucket
  refine congrArg (Multiset.map Stored.value) ?_
  rw [Multiset.Nodup.ext (hnodup (h.place hplace)) (hnodup h)]
  intro b
  rw [Multiset.mem_filter, Multiset.mem_filter, Multiset.mem_coe, Multiset.mem_coe]
  refine and_congr_left fun hb => ?_
  have hne : b.key ≠ k := by
    rintro rfl
    rw [hk] at hb
    cases hb
  have hstored : ∀ {a : Aggregator ν}, WF a → (b ∈ a.stored ↔ a.lookup b.key = some b) := by
    intro a h
    rw [h.lookup_eq_some_iff, and_iff_left rfl]
  rw [hstored (h.place hplace), hstored h, lookup_place h hplace, if_neg hne]

/-- A placement merges the value into what its class holds. -/
theorem place_merges (h : WF a) (hplace : a.place? k due v = some a') :
    Merges ((if C k then {v} else 0) + contents C a) (contents C a') := by
  by_cases hk : C k
  · have hothers : contents (fun k' => C k' && k' ≠ k) a' =
        contents (fun k' => C k' && k' ≠ k) a := by
      refine contents_place_of_not _ h hplace ?_
      simp
    rw [if_pos hk, contents_eq C h hk, contents_eq C (h.place hplace) hk, hothers, held, held,
      lookup_place h hplace, if_pos rfl, ← add_assoc]
    refine Merges.add_right ?_ _
    cases hl : a.lookup k with
    | none => exact .refl
    | some b =>
      have hsome := place?_isSome a k due v
      rw [hplace, hl] at hsome
      cases hw : b.value.merge? v with
      | none =>
        rw [absorb?, hw] at hsome
        cases hsome
      | some w =>
        rw [absorb?, hw, add_comm]
        exact .of_merge? hw
  · rw [if_neg hk, zero_add, contents_place_of_not C h hplace (by simpa using hk)]

end Place

/-! ## Drains -/

theorem contents_drain (a : Aggregator ν) (leaves : Stored ν → Bool) :
    (Answer.buckets (a.drain leaves).1).returned C + contents C (a.drain leaves).2 =
      contents C a := by
  have hcoe : ∀ p : Stored ν → Bool, (a.stored.filter p : Multiset (Stored ν)) =
      (a.stored : Multiset (Stored ν)).filter fun b => p b = true := by
    intro p
    simp
  have hleft : (Answer.buckets (a.drain leaves).1).returned C =
      (((a.stored : Multiset (Stored ν)).filter fun b => C b.key).filter fun b => leaves b).map
        Stored.value := by
    rw [Answer.returned, drain_fst, ← Multiset.map_coe, hcoe, Multiset.filter_map, Multiset.map_map,
      Multiset.filter_comm]
    rfl
  have hstay : contents C (a.drain leaves).2 =
      (((a.stored : Multiset (Stored ν)).filter fun b => C b.key).filter fun b => ¬ leaves b).map
        Stored.value := by
    rw [contents, stored_drain, hcoe, Multiset.filter_comm]
    simp
  rw [hleft, hstay, ← Multiset.map_add, Multiset.filter_add_not]
  rfl

/-! ## Runs -/

section Run

variable [Add ν] [LT ν] [DecidableLT ν] {a : Aggregator ν}

/-- **One request**: what it submits merges into what the class holds, less what it returns. -/
theorem serve_merges (h : WF a) {r : Request ν} (hok : (a.serve r).1.Accepting) :
    Merges (r.submitted C a.settings + contents C a)
      ((a.serve r).1.returned C + contents C (a.serve r).2) := by
  rcases serve_cases a r with ⟨now, k, v, hs, he⟩ | ⟨leaves, hs, he⟩ | ⟨hs, he⟩ | ⟨hs, he⟩ <;>
    rw [he] at hok ⊢ <;> simp only [Request.submitted, hs]
  · rcases merge_cases now k v a with ⟨o, ho, hm⟩ | ⟨a', ha, hm⟩ <;> rw [hm] at hok ⊢
    · exact absurd hok ho
    · rw [Answer.returned, zero_add]
      exact place_merges C h ha
  · rw [contents_drain, zero_add]
  · exact .refl
  · exact .refl

/-- **A run** that refuses nothing: what the class held and what was submitted to it merge into what
was returned from it and what it holds in the end. -/
theorem run_merges (h : WF a) {requests : List (Request ν)}
    (hok : ∀ e ∈ (a.run requests).1, e.2.Accepting) :
    Merges ((requests.map (Request.submitted C a.settings)).sum + contents C a)
      (((a.run requests).1.map fun e => e.2.returned C).sum + contents C (a.run requests).2) := by
  induction requests generalizing a with
  | nil => exact .refl
  | cons r rest ih =>
    rw [run_cons, List.forall_mem_cons] at hok
    have hstep := serve_merges C h hok.1
    have hrest := ih (h.serve r) hok.2
    rw [settings_serve] at hrest
    rw [run_cons, List.map_cons, List.map_cons, List.sum_cons, List.sum_cons]
    exact hstep.chain hrest

/-- A run of submissions returns nothing. -/
theorem sum_returned_eq_zero {requests : List (Request ν)}
    (h : ∀ r ∈ requests, r.submission?.isSome) :
    ((a.run requests).1.map fun e => e.2.returned C).sum = 0 := by
  induction requests generalizing a with
  | nil => rfl
  | cons r rest ih =>
    obtain ⟨hfirst, hrest⟩ := List.forall_mem_cons.mp h
    rw [run_cons, List.map_cons, List.sum_cons, ih hrest, add_zero]
    rcases serve_cases a r with ⟨now, k, v, -, he⟩ | ⟨leaves, hs, -⟩ | ⟨hs, -⟩ | ⟨hs, -⟩
    · rw [he]
      rfl
    all_goals
      rw [hs] at hfirst
      cases hfirst

/-- What is stored for a key after a run of submissions is what was submitted to it, merged. -/
theorem run_merges_submissions {α : Type} {key : α → BucketKey} {value : α → Value ν}
    {request : Nat → α → Request ν}
    (hrequest : ∀ i x, (request i x).submission? = some (key x, value x))
    (s : Settings) (shards : Nat) (xs : List α)
    (hok : ∀ e ∈ ((empty s shards).run (xs.mapIdx request)).1, e.2.Accepting) (k : BucketKey) :
    Merges ((xs.filter fun x => s.slot (key x) = k).map value : List (Value ν))
      (held ((empty s shards).run (xs.mapIdx request)).2 k) := by
  have hwf : WF (empty s shards : Aggregator ν) := .empty s shards
  have hmerges := run_merges (fun k' => k' = k) hwf hok
  have hsubmitted : (xs.mapIdx request).map (Request.submitted (fun k' => k' = k) s) =
      xs.map fun x => if s.slot (key x) = k then {value x} else 0 := by
    refine List.ext_getElem (by simp) fun i _ _ => ?_
    simp [Request.submitted, hrequest]
  have hall : ∀ r ∈ xs.mapIdx request, r.submission?.isSome := by
    intro r hr
    obtain ⟨i, hi, rfl⟩ := List.mem_mapIdx.mp hr
    rw [hrequest]
    rfl
  have hsum := sum_map_ite_singleton xs (fun x => s.slot (key x) = k) value
  simp only [decide_eq_true_eq] at hsum
  rw [contents_empty, add_zero, contents_key (hwf.run _), sum_returned_eq_zero _ hall, zero_add]
    at hmerges
  change Merges ((xs.mapIdx request).map (Request.submitted (fun k' => k' = k) s)).sum _ at hmerges
  rwa [hsubmitted, hsum] at hmerges

end Run

end Telemetry.Aggregator

import Telemetry.Proofs.Aggregator.Run

/-!
# What all buckets of an aggregator have in common

A property of keys and values that merging keeps holds of every stored and every returned bucket as
soon as it holds of what is submitted, each in the slot that it falls into (`run_holds`).  If the
property fixes the kind of a value by its key, no merge is refused for its kind.
-/

namespace Telemetry.Aggregator

variable {ν : Type} {P : BucketKey → Value ν → Prop}

/-- The property holds of every stored bucket. -/
def Holds (P : BucketKey → Value ν → Prop) (a : Aggregator ν) : Prop :=
  ∀ b ∈ a.stored, P b.key b.value

theorem holds_empty (s : Settings) (shards : Nat) : Holds P (empty s shards) := by
  intro b hb
  obtain ⟨shard, hshard, hb⟩ := List.mem_flatten.mp hb
  rw [(List.mem_replicate.mp hshard).2] at hb
  cases hb

/-- The property holds of what a request submits, in its slot. -/
def Request.Obeys (P : BucketKey → Value ν → Prop) (s : Settings) (r : Request ν) : Prop :=
  ∀ k v, r.submission? = some (k, v) → P (s.slot k) v

/-- The property holds of what an answer returns. -/
def Answer.Obeys (P : BucketKey → Value ν → Prop) (answer : Answer ν) : Prop :=
  ∀ bs, answer = .buckets bs → ∀ b ∈ bs, P b.key b.value

theorem Holds.lookup {a : Aggregator ν} (h : Holds P a) (hwf : WF a) {k : BucketKey} {b : Stored ν}
    (hb : a.lookup k = some b) : P k b.value := by
  obtain ⟨hmem, rfl⟩ := hwf.lookup_eq_some_iff.mp hb
  exact h b hmem

section Drain

variable {a : Aggregator ν} (leaves : Stored ν → Bool)

theorem Holds.drain (h : Holds P a) : Holds P (a.drain leaves).2 := by
  intro b hb
  rw [stored_drain] at hb
  exact h b (List.mem_of_mem_filter hb)

theorem Holds.drained (h : Holds P a) : ∀ b ∈ (a.drain leaves).1, P b.key b.value := by
  intro b hb
  rw [drain_fst] at hb
  obtain ⟨c, hc, rfl⟩ := List.mem_map.mp hb
  exact h c (List.mem_of_mem_filter hc)

end Drain

variable [Add ν] [LT ν] [DecidableLT ν]

/-- What holds of two values of a key holds of what they merge into. -/
def MergeClosed (P : BucketKey → Value ν → Prop) : Prop :=
  ∀ k v w u, P k v → P k w → v.merge? w = some u → P k u

section Step

variable (hclosed : MergeClosed P) {a : Aggregator ν}
include hclosed

theorem Holds.place (h : Holds P a) (hwf : WF a) {k : BucketKey} {due : UInt64} {v : Value ν}
    {a' : Aggregator ν} (hv : P k v) (hplace : a.place? k due v = some a') : Holds P a' := by
  intro b hb
  have hlookup : a'.lookup b.key = some b := (hwf.place hplace).lookup_eq_some_iff.mpr ⟨hb, rfl⟩
  rw [lookup_place hwf hplace] at hlookup
  split at hlookup
  · next hk =>
    rw [hk]
    cases hl : a.lookup k with
    | none =>
      rw [hl] at hlookup
      obtain rfl := Option.some.inj hlookup
      exact hv
    | some c =>
      rw [hl] at hlookup
      obtain ⟨w, hw, rfl⟩ := Option.map_eq_some_iff.mp hlookup
      exact hclosed _ _ _ _ (h.lookup hwf hl) hv hw
  · exact h.lookup hwf hlookup

/-- **One request keeps the property**, and what it returns has it. -/
theorem Holds.serve (h : Holds P a) (hwf : WF a) {r : Request ν} (hr : r.Obeys P a.settings) :
    Holds P (a.serve r).2 ∧ (a.serve r).1.Obeys P := by
  rcases serve_cases a r with ⟨now, k, v, hs, he⟩ | ⟨leaves, -, he⟩ | ⟨-, he⟩ | ⟨-, he⟩ <;> rw [he]
  · refine ⟨?_, fun bs hbs => nomatch hbs⟩
    rcases merge_cases now k v a with ⟨o, -, hm⟩ | ⟨a', ha, hm⟩ <;> rw [hm]
    · exact h
    · exact h.place hclosed hwf (hr k v hs) ha
  · refine ⟨h.drain leaves, ?_⟩
    rintro bs ⟨⟩
    exact h.drained leaves
  · exact ⟨h, fun bs hbs => nomatch hbs⟩
  · exact ⟨h, fun bs hbs => nomatch hbs⟩

/-- **A run keeps the property**, and whatever it returns has it. -/
theorem run_holds (h : Holds P a) (hwf : WF a) {requests : List (Request ν)}
    (hr : ∀ r ∈ requests, r.Obeys P a.settings) :
    Holds P (a.run requests).2 ∧ ∀ e ∈ (a.run requests).1, e.2.Obeys P := by
  induction requests generalizing a with
  | nil => exact ⟨h, List.forall_mem_nil _⟩
  | cons r rest ih =>
    obtain ⟨hfirst, hrest⟩ := List.forall_mem_cons.mp hr
    obtain ⟨hnext, hanswer⟩ := h.serve hclosed hwf hfirst
    rw [← settings_serve a r] at hrest
    obtain ⟨hend, hanswers⟩ := ih hnext (hwf.serve r) hrest
    rw [run_cons]
    exact ⟨hend, List.forall_mem_cons.mpr ⟨hanswer, hanswers⟩⟩

end Step

/-! ## Kinds -/

section Kinds

variable {a : Aggregator ν}

/-- A merge is refused for its kind only by a bucket that holds another kind of value. -/
theorem merge_typeMismatch {now : UInt64} {k : BucketKey} {v : Value ν}
    (h : (a.merge now k v).1 = .typeMismatch) :
    ∃ b, a.lookup (a.settings.slot k) = some b ∧ b.value.kind ≠ v.kind := by
  have hplace : a.place? (a.settings.slot k) (a.settings.dueAt (a.settings.slot k).timestamp now) v =
      none := by
    rw [merge_eq] at h
    split at h
    · cases h
    · split at h
      · cases h
      · dsimp only at h
        split at h
        · cases h
        · next hnone => exact hnone
  have habsorb := place?_isSome a (a.settings.slot k)
    (a.settings.dueAt (a.settings.slot k).timestamp now) v
  rw [hplace] at habsorb
  cases hl : a.lookup (a.settings.slot k) with
  | none =>
    rw [hl] at habsorb
    cases habsorb
  | some b =>
    rw [hl, absorb?, Option.isSome_map] at habsorb
    refine ⟨b, rfl, ?_⟩
    intro hkind
    rw [(Value.isSome_merge?_iff b.value v).mpr hkind] at habsorb
    cases habsorb

variable (hkind : ∀ k v w, P k v → P k w → v.kind = w.kind)
include hkind

theorem Holds.serve_ne_typeMismatch (h : Holds P a) (hwf : WF a) {r : Request ν}
    (hr : r.Obeys P a.settings) : (a.serve r).1 ≠ .outcome .typeMismatch := by
  rcases serve_cases a r with ⟨now, k, v, hs, he⟩ | ⟨leaves, -, he⟩ | ⟨-, he⟩ | ⟨-, he⟩ <;> rw [he]
  · intro hanswer
    obtain ⟨b, hb, hne⟩ := merge_typeMismatch (Answer.outcome.inj hanswer)
    exact hne (hkind _ _ _ (h.lookup hwf hb) (hr k v hs))
  · exact fun hanswer => nomatch hanswer
  · exact fun hanswer => nomatch hanswer
  · exact fun hanswer => nomatch hanswer

/-- **No merge of a run is refused for its kind.** -/
theorem run_ne_typeMismatch (hclosed : MergeClosed P) (h : Holds P a) (hwf : WF a)
    {requests : List (Request ν)} (hr : ∀ r ∈ requests, r.Obeys P a.settings) :
    ∀ e ∈ (a.run requests).1, e.2 ≠ .outcome .typeMismatch := by
  induction requests generalizing a with
  | nil => exact List.forall_mem_nil _
  | cons r rest ih =>
    obtain ⟨hfirst, hrest⟩ := List.forall_mem_cons.mp hr
    rw [← settings_serve a r] at hrest
    rw [run_cons]
    refine List.forall_mem_cons.mpr ⟨h.serve_ne_typeMismatch hkind hwf hfirst, ?_⟩
    exact ih (h.serve hclosed hwf hfirst).1 (hwf.serve r) hrest

end Kinds

end Telemetry.Aggregator

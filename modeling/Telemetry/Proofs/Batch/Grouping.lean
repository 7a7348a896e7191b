import Mathlib.Data.List.Count
import Telemetry.Batch
import Telemetry.Proofs.Ordered

/-!
# One batch for each project

Grouping keeps every bucket once: those of a class inside one project come out of the batches in the
order in which they went in (`filter_buckets_group`).  The batch of a project depends on the buckets of
that project alone (`same_filter_group`).
-/

namespace Telemetry

/-! ## The order of scopes -/

namespace Scope

theorem lt_iff {s t : Scope} :
    s < t ↔ s.org < t.org ∨ (s.org = t.org ∧ s.project < t.project) := Iff.rfl

instance : Std.Asymm (α := Scope) (· < ·) where
  asymm s t h h' := by
    simp only [lt_iff, UInt64.lt_iff_toNat_lt, ← UInt64.toNat_inj] at h h'
    omega

instance : Trans (α := Scope) (β := Scope) (γ := Scope) (· < ·) (· < ·) (· < ·) where
  trans {s t u} h h' := by
    simp only [lt_iff, UInt64.lt_iff_toNat_lt, ← UInt64.toNat_inj] at h h' ⊢
    omega

instance : Std.Trichotomous (α := Scope) (· < ·) where
  trichotomous s t h h' := by
    cases s
    cases t
    simp only [lt_iff, UInt64.lt_iff_toNat_lt, ← UInt64.toNat_inj, mk.injEq] at h h' ⊢
    omega

end Scope

namespace Batch

variable {partitions : Option UInt64} {buckets : List (Bucket Float)} {s : Scope}

theorem mem_scopes : s ∈ scopes buckets ↔ ∃ b ∈ buckets, b.key.scope = s := by
  rw [scopes, Ordered.mem_keys_ofList, List.map_map, List.mem_map]
  rfl

theorem nodup_scopes (buckets : List (Bucket Float)) : (scopes buckets).Nodup :=
  Ordered.sorted_ofList.nodup_keys

/-- A project has a batch if it has a bucket. -/
theorem mem_scopes_iff_filter :
    s ∈ scopes buckets ↔ (buckets.filter fun b => b.key.scope = s) ≠ [] := by
  rw [mem_scopes, Ne, List.filter_eq_nil_iff]
  simp

/-! ## Batches -/

/-- A batch holds the buckets of its project, of which there is one at least. -/
theorem mem_group {b : Batch} (h : b ∈ group partitions buckets) :
    b.buckets ≠ [] ∧ b.partition = b.scope.partition? partitions ∧
      b.buckets = buckets.filter fun x => x.key.scope = b.scope := by
  obtain ⟨s, hs, rfl⟩ := List.mem_map.mp h
  exact ⟨mem_scopes_iff_filter.mp hs, rfl, rfl⟩

/-- **The batch of a project** depends on the buckets of the project alone. -/
theorem filter_group (partitions : Option UInt64) (buckets : List (Bucket Float)) (s : Scope) :
    ((group partitions buckets).filter fun b => b.scope = s) =
      if (buckets.filter fun b => b.key.scope = s) = [] then []
      else [⟨s, s.partition? partitions, buckets.filter fun b => b.key.scope = s⟩] := by
  have honly : (scopes buckets).filter (fun t => t = s) =
      if (buckets.filter fun b => b.key.scope = s) = [] then [] else [s] := by
    have hcount := (nodup_scopes buckets).count (a := s)
    simp only [mem_scopes_iff_filter, ite_not] at hcount
    rw [List.filter_eq, hcount]
    split <;> rfl
  have hcomp : (fun b : Batch => decide (b.scope = s)) ∘ (fun t => (⟨t, t.partition? partitions,
      buckets.filter fun b => b.key.scope = t⟩ : Batch)) = fun t => decide (t = s) := rfl
  rw [group, List.filter_map, hcomp, honly]
  split <;> rfl

theorem filter_group_eq_group (partitions : Option UInt64) (buckets : List (Bucket Float)) (s : Scope) :
    ((group partitions buckets).filter fun b => b.scope = s) =
      group partitions (buckets.filter fun b => b.key.scope = s) := by
  have hall : ((group partitions (buckets.filter fun b => b.key.scope = s)).filter fun b => b.scope = s) =
      group partitions (buckets.filter fun b => b.key.scope = s) := by
    refine List.filter_eq_self.mpr fun b hb => ?_
    obtain ⟨hne, -, hbuckets⟩ := mem_group hb
    obtain ⟨x, hx⟩ := List.exists_mem_of_ne_nil _ hne
    rw [hbuckets] at hx
    obtain ⟨hx, hscope⟩ := List.mem_filter.mp hx
    have hs := (List.mem_filter.mp hx).2
    rw [of_decide_eq_true hscope] at hs
    exact hs
  rw [← hall, filter_group, filter_group, List.filter_filter]
  simp only [Bool.and_self]

/-- The same batch, its buckets in any order. -/
structure Same (b c : Batch) : Prop where
  scope : b.scope = c.scope
  partition : b.partition = c.partition
  buckets : b.buckets.Perm c.buckets

theorem Same.refl (b : Batch) : b.Same b := ⟨rfl, rfl, .refl _⟩

/-- **A project has the same batch** whatever buckets of others are among its own. -/
theorem same_filter_group {more : List (Bucket Float)} (partitions : Option UInt64)
    (h : (buckets.filter fun b => b.key.scope = s).Perm (more.filter fun b => b.key.scope = s)) :
    List.Forall₂ Same ((group partitions buckets).filter fun b => b.scope = s)
      ((group partitions more).filter fun b => b.scope = s) := by
  rw [filter_group, filter_group]
  by_cases hnone : (buckets.filter fun b => b.key.scope = s) = []
  · have hnone' : (more.filter fun b => b.key.scope = s) = [] := by
      rw [hnone] at h
      exact List.nil_perm.mp h
    rw [if_pos hnone, if_pos hnone']
    exact .nil
  · have hsome : (more.filter fun b => b.key.scope = s) ≠ [] := by
      intro hnone'
      rw [hnone'] at h
      exact hnone (List.perm_nil.mp h)
    rw [if_neg hnone, if_neg hsome]
    exact .cons ⟨rfl, rfl, h⟩ .nil

theorem flatMap_ite_eq {α β : Type} [DecidableEq α] {l : List α} (h : l.Nodup) (a : α) (x : List β) :
    (l.flatMap fun b => if b = a then x else []) = if a ∈ l then x else [] := by
  induction l with
  | nil => rfl
  | cons b rest ih =>
    obtain ⟨hb, hrest⟩ := List.nodup_cons.mp h
    rw [List.flatMap_cons, ih hrest]
    by_cases hba : b = a
    · subst hba
      simp [hb]
    · simp [hba, Ne.symm hba]

/-- **Buckets of one project come out of the batches as they went in.** -/
theorem filter_buckets_group (partitions : Option UInt64) (buckets : List (Bucket Float))
    {q : Bucket Float → Bool} (hq : ∀ b, q b = true → b.key.scope = s) :
    ((group partitions buckets).flatMap Batch.buckets).filter q = buckets.filter q := by
  have hclass : ∀ t, (buckets.filter fun b => b.key.scope = t).filter q =
      if t = s then buckets.filter q else [] := by
    intro t
    rw [List.filter_filter]
    split
    · next hts =>
      subst hts
      apply List.filter_congr
      intro b _
      cases hb : q b with
      | false => rfl
      | true => simp [hq b hb]
    · next hts =>
      apply List.filter_eq_nil_iff.mpr
      intro b _ hb
      obtain ⟨hb, hscope⟩ := Bool.and_eq_true_iff.mp hb
      exact hts ((of_decide_eq_true hscope).symm.trans (hq b hb))
  rw [group, List.flatMap_map, List.filter_flatMap]
  dsimp only
  simp only [hclass]
  rw [flatMap_ite_eq (nodup_scopes buckets)]
  split
  · rfl
  · next hs =>
    -- no bucket is of the project
    refine (List.filter_eq_nil_iff.mpr ?_).symm
    intro b hb hqb
    exact hs (mem_scopes.mpr ⟨b, hb, hq b hqb⟩)

end Batch

end Telemetry

import Mathlib.Order.Bounds.Defs
import Telemetry.Proofs.Metric.Merging

/-!
# Gauges over many merges

A gauge counts its readings in a word, and a count of zero marks a gauge that saw nothing.  Merging
adds up the words (`toNat_count_foldl_merge`), so a gauge whose merged counts are a multiple of `2 ^ 64`
looks as if it had seen nothing, and the next gauge that is merged replaces it.  A sequence of merges
therefore sums up the gauges since its count last came back to zero (`Since`, `summary_since`): all of
them if it never did, which no sequence of fewer than `2 ^ 64` readings does.
-/

namespace Telemetry.Gauge

/-- A gauge that saw something and holds finite doubles. -/
structure Seen (g : Gauge Float) : Prop where
  count : g.count ≠ 0
  last : Binary64.isFinite g.last = true
  min : Binary64.isFinite g.min = true
  max : Binary64.isFinite g.max = true
  sum : Binary64.isFinite g.sum = true

/-- The last of the last readings, the least of the least ones, the greatest of the greatest ones and
the sums added up in order. -/
structure Summary (g : Gauge Float) (gs : List (Gauge Float)) : Prop where
  last : gs.getLast?.map Gauge.last = some g.last
  min : IsLeast {x | ∃ h ∈ gs, h.min = x} g.min
  max : IsGreatest {x | ∃ h ∈ gs, h.max = x} g.max
  sum : ∃ first rest, gs = first :: rest ∧ g.sum = rest.foldl (fun x h => x + h.sum) first.sum

/-! ## Counts -/

/-- All readings that gauges count. -/
def total (gs : List (Gauge Float)) : Nat := (gs.map fun g => g.count.toNat).sum

variable {g h : Gauge Float} {gs : List (Gauge Float)}

theorem total_append (gs hs : List (Gauge Float)) : total (gs ++ hs) = total gs + total hs := by
  rw [total, List.map_append, List.sum_append, total, total]

theorem total_concat (gs : List (Gauge Float)) (h : Gauge Float) :
    total (gs ++ [h]) = total gs + h.count.toNat := by
  rw [total_append]
  rfl

theorem count_merge (g h : Gauge Float) : (g.merge h).count = g.count + h.count := by
  unfold merge
  split
  · next hh => rw [hh, UInt64.add_zero]
  · split
    · next hg => rw [hg, UInt64.zero_add]
    · rfl

/-- **The counts of merged gauges add up as words.** -/
theorem toNat_count_foldl_merge (g : Gauge Float) (gs : List (Gauge Float)) :
    (gs.foldl merge g).count.toNat = total (g :: gs) % UInt64.size := by
  induction gs using List.reverseRecOn with
  | nil => exact (Nat.mod_eq_of_lt g.count.toNat_lt).symm
  | append_singleton gs h ih =>
    rw [List.foldl_concat, count_merge, UInt64.toNat_add, ih, ← List.cons_append, total_concat,
      Nat.mod_add_mod]

theorem count_foldl_merge_eq_zero_iff :
    (gs.foldl merge g).count = 0 ↔ UInt64.size ∣ total (g :: gs) := by
  rw [← UInt64.toNat_inj, toNat_count_foldl_merge, Nat.dvd_iff_mod_eq_zero]
  rfl

/-! ## One merge -/

theorem summary_singleton (h : Gauge Float) (hseen : h.Seen) : Summary h [h] := by
  have hmin : h.min ≤ h.min := (Binary64.le_iff hseen.min hseen.min).mpr (le_refl _)
  have hmax : h.max ≤ h.max := (Binary64.le_iff hseen.max hseen.max).mpr (le_refl _)
  refine ⟨rfl, ⟨⟨h, List.mem_singleton_self h, rfl⟩, ?_⟩, ⟨⟨h, List.mem_singleton_self h, rfl⟩, ?_⟩,
    ⟨h, [], rfl, rfl⟩⟩
  · rintro _ ⟨k, hk, rfl⟩
    rwa [List.mem_singleton.mp hk]
  · rintro _ ⟨k, hk, rfl⟩
    rwa [List.mem_singleton.mp hk]

/-- Merging one more gauge into one that is known to have seen something. -/
theorem Summary.merge (hsum : Summary g gs) (hcount : g.count ≠ 0) (hgs : ∀ k ∈ gs, k.Seen)
    (hh : h.Seen) : Summary (g.merge h) (gs ++ [h]) := by
  obtain ⟨first, rest, rfl, hsums⟩ := hsum.sum
  obtain ⟨⟨low, hlow, hlow'⟩, hleast⟩ := hsum.min
  obtain ⟨⟨high, hhigh, hhigh'⟩, hgreatest⟩ := hsum.max
  have hmin : Binary64.isFinite g.min = true := hlow' ▸ (hgs low hlow).min
  have hmax : Binary64.isFinite g.max = true := hhigh' ▸ (hgs high hhigh).max
  have hminValue := Value.value_lesser hmin hh.min
  have hmaxValue := Value.value_greater hmax hh.max
  rw [Gauge.merge, if_neg hh.count, if_neg hcount]
  refine ⟨?_, ⟨?_, ?_⟩, ⟨?_, ?_⟩, ⟨first, rest ++ [h], rfl, ?_⟩⟩
  · rw [List.getLast?_concat]
    rfl
  · dsimp only
    unfold lesser
    split
    · exact ⟨h, List.mem_append_right _ (List.mem_singleton_self h), rfl⟩
    · exact ⟨low, List.mem_append_left _ hlow, hlow'⟩
  · rintro _ ⟨k, hk, rfl⟩
    rw [List.mem_append, List.mem_singleton] at hk
    rcases hk with hk | rfl
    · have hle := (Binary64.le_iff hmin (hgs k hk).min).mp (hleast ⟨k, hk, rfl⟩)
      rw [Binary64.le_iff (Value.isFinite_lesser hmin hh.min) (hgs k hk).min, hminValue]
      exact (min_le_left _ _).trans hle
    · rw [Binary64.le_iff (Value.isFinite_lesser hmin hh.min) hh.min, hminValue]
      exact min_le_right _ _
  · dsimp only
    unfold greater
    split
    · exact ⟨h, List.mem_append_right _ (List.mem_singleton_self h), rfl⟩
    · exact ⟨high, List.mem_append_left _ hhigh, hhigh'⟩
  · rintro _ ⟨k, hk, rfl⟩
    rw [List.mem_append, List.mem_singleton] at hk
    rcases hk with hk | rfl
    · have hle := (Binary64.le_iff (hgs k hk).max hmax).mp (hgreatest ⟨k, hk, rfl⟩)
      rw [Binary64.le_iff (hgs k hk).max (Value.isFinite_greater hmax hh.max), hmaxValue]
      exact hle.trans (le_max_left _ _)
    · rw [Binary64.le_iff hh.max (Value.isFinite_greater hmax hh.max), hmaxValue]
      exact le_max_right _ _
  · rw [List.foldl_concat, ← hsums]

/-! ## Sequences of merges -/

/-- No part of a sequence but all of it counts a multiple of `2 ^ 64`. -/
def Unwrapped (gs : List (Gauge Float)) : Prop :=
  ∀ early late, early ++ late = gs → early ≠ [] → late ≠ [] → ¬ UInt64.size ∣ total early

/-- The gauges of a sequence before and after the count last came back to zero with more to come. -/
structure Since (lost kept : List (Gauge Float)) : Prop where
  wrapped : UInt64.size ∣ total lost
  unwrapped : Unwrapped kept
  ne_nil : kept ≠ []

theorem exists_since {gs : List (Gauge Float)} (h : gs ≠ []) :
    ∃ lost kept, lost ++ kept = gs ∧ Since lost kept := by
  by_cases hgs : Unwrapped gs
  · exact ⟨[], gs, rfl, Nat.dvd_zero _, hgs, h⟩
  · unfold Unwrapped at hgs
    push Not at hgs
    obtain ⟨early, late, rfl, hearly, hlate, hdvd⟩ := hgs
    have hshorter : late.length < (early ++ late).length := by
      have := List.length_pos_of_ne_nil hearly
      rw [List.length_append]
      omega
    obtain ⟨lost, kept, rfl, hsince⟩ := exists_since hlate
    refine ⟨early ++ lost, kept, List.append_assoc .., ?_, hsince.unwrapped, hsince.ne_nil⟩
    rw [total_append]
    exact Nat.dvd_add hdvd hsince.wrapped
termination_by gs.length

/-- The count comes back to zero right before the last gauge if it does so there at all. -/
theorem Since.concat {lost kept : List (Gauge Float)} (hsince : Since lost kept)
    (heq : lost ++ kept = gs ++ [h]) : ∃ early, kept = early ++ [h] ∧ lost ++ early = gs ∧
      (UInt64.size ∣ total gs → early = []) ∧ (early ≠ [] → Since lost early) := by
  obtain ⟨hlost, hkept, hne⟩ := hsince
  obtain ⟨early, last, rfl⟩ := List.eq_nil_or_concat' kept |>.resolve_left hne
  rw [← List.append_assoc] at heq
  obtain ⟨rfl, hlast⟩ := List.append_inj' heq rfl
  obtain rfl := List.singleton_inj.mp hlast
  refine ⟨early, rfl, rfl, fun hdvd => ?_, fun hearly => ⟨hlost, ?_, hearly⟩⟩
  · by_contra hearly
    rw [total_append, Nat.dvd_add_right hlost] at hdvd
    exact hkept early [last] rfl hearly (List.cons_ne_nil _ _) hdvd
  · rintro first second rfl hfirst hsecond
    exact hkept first (second ++ [last]) (List.append_assoc ..).symm hfirst
      (List.append_ne_nil_of_left_ne_nil hsecond _)

/-- **Gauges that are merged one after another** are summed up since the count last came back to
zero. -/
theorem summary_since {lost kept : List (Gauge Float)} (hseen : ∀ k ∈ g :: gs, k.Seen)
    (heq : lost ++ kept = g :: gs) (hsince : Since lost kept) :
    Summary (gs.foldl merge g) kept := by
  induction gs using List.reverseRecOn generalizing kept with
  | nil =>
    have hsingle : lost ++ kept = [] ++ [g] := heq
    obtain ⟨early, rfl, hearly, -⟩ := hsince.concat hsingle
    obtain ⟨-, rfl⟩ := List.append_eq_nil_iff.mp hearly
    exact summary_singleton g (hseen g (List.mem_singleton_self g))
  | append_singleton gs h ih =>
    rw [← List.cons_append] at heq hseen
    obtain ⟨early, rfl, hsplit, hwrapped, hearlier⟩ := hsince.concat heq
    have hh : h.Seen := hseen h (List.mem_append_right _ (List.mem_singleton_self h))
    have hgs : ∀ k ∈ g :: gs, k.Seen := fun k hk => hseen k (List.mem_append_left _ hk)
    rw [List.foldl_concat]
    by_cases hdvd : UInt64.size ∣ total (g :: gs)
    · -- the count is back at zero, so the gauge seems to have seen nothing
      rw [hwrapped hdvd, merge, if_neg hh.count, if_pos (count_foldl_merge_eq_zero_iff.mpr hdvd)]
      exact summary_singleton h hh
    · have hearly : early ≠ [] := by
        rintro rfl
        rw [List.append_nil] at hsplit
        exact hdvd (hsplit ▸ hsince.wrapped)
      refine (ih hgs hsplit (hearlier hearly)).merge (mt count_foldl_merge_eq_zero_iff.mp hdvd) ?_ hh
      exact fun k hk => hgs k (hsplit ▸ List.mem_append_right _ hk)

/-- Fewer than `2 ^ 64` readings never bring the count back to zero. -/
theorem unwrapped_of_total_lt (hseen : ∀ k ∈ gs, k.Seen) (hlt : total gs < UInt64.size) :
    Unwrapped gs := by
  rintro early late rfl hearly - hdvd
  obtain ⟨k, rest, rfl⟩ := List.exists_cons_of_ne_nil hearly
  have hk : 0 < k.count.toNat := by
    have hne := (hseen k (List.mem_append_left _ List.mem_cons_self)).count
    exact Nat.pos_of_ne_zero fun hzero => hne (UInt64.toNat_inj.mp hzero)
  have htotal : total (k :: rest) = k.count.toNat + total rest := rfl
  rw [total_append] at hlt
  have hle := Nat.le_of_dvd (by omega) hdvd
  omega

theorem foldlM_merge? (g : Gauge Float) (gs : List (Gauge Float)) :
    (gs.map Value.gauge).foldlM Value.merge? (.gauge g) = some (.gauge (gs.foldl merge g)) := by
  induction gs generalizing g with
  | nil => rfl
  | cons h gs ih => exact ih (g.merge h)

/-- **What is left of gauges that are merged one after another.**  The count is their sum modulo
`2 ^ 64`, and the rest sums up those since the count last came back to zero.  These are all of them if
it never did, and then nothing is forgotten; with fewer than `2 ^ 64` readings the count is exact
too. -/
theorem merged_summary (g : Gauge Float) (gs : List (Gauge Float)) (hseen : ∀ k ∈ g :: gs, k.Seen) :
    ∃ r : Gauge Float,
      (gs.map Value.gauge).foldlM Value.merge? (.gauge g) = some (.gauge r) ∧
      r.count.toNat = total (g :: gs) % UInt64.size ∧
      (∃ lost kept, lost ++ kept = g :: gs ∧ Since lost kept) ∧
      (∀ lost kept, lost ++ kept = g :: gs → Since lost kept → Summary r kept) ∧
      (Unwrapped (g :: gs) → Summary r (g :: gs)) ∧
      (total (g :: gs) < UInt64.size → Unwrapped (g :: gs) ∧ r.count.toNat = total (g :: gs)) := by
  refine ⟨gs.foldl merge g, foldlM_merge? g gs, toNat_count_foldl_merge g gs,
    exists_since (List.cons_ne_nil g gs), fun lost kept heq => summary_since hseen heq,
    fun hwhole => ?_, fun hlt => ⟨unwrapped_of_total_lt hseen hlt, ?_⟩⟩
  · exact summary_since hseen (List.nil_append _) ⟨Nat.dvd_zero _, hwhole, List.cons_ne_nil g gs⟩
  · rw [toNat_count_foldl_merge, Nat.mod_eq_of_lt hlt]

/-- A gauge that counts half of what makes a count come back to zero. -/
def halfway : Gauge Float := ⟨5, 1, 9, 15, 0x8000000000000000⟩

theorem seen_halfway : halfway.Seen := by constructor <;> decide +kernel

theorem seen_three : (single (3 : Float)).Seen := by constructor <;> decide +kernel

theorem seen_halfway_halfway_three : ∀ k ∈ [halfway, halfway, single 3], k.Seen := by
  simp only [List.forall_mem_cons]
  exact ⟨seen_halfway, seen_halfway, seen_three, fun _ hk => absurd hk List.not_mem_nil⟩

/-- Two gauges that fill a count and a third one. -/
theorem merged_summary_full_count : (∀ k ∈ [halfway, halfway, single 3], k.Seen) ∧ ∃ r : Gauge Float,
    ([halfway, single 3].map Value.gauge).foldlM Value.merge? (.gauge halfway) = some (.gauge r) ∧
    r.count.toNat = 1 ∧ Summary r [single 3] := by
  refine ⟨seen_halfway_halfway_three, ?_⟩
  obtain ⟨r, hr, hcount, -, hsince, -⟩ :=
    merged_summary halfway [halfway, single 3] seen_halfway_halfway_three
  refine ⟨r, hr, hcount.trans (by decide +kernel), hsince [halfway, halfway] [single 3] rfl ?_⟩
  refine ⟨by decide +kernel, ?_, List.cons_ne_nil _ _⟩
  rintro early late heq hearly hlate
  rw [List.append_eq_singleton_iff] at heq
  rcases heq with ⟨rfl, -⟩ | ⟨-, rfl⟩
  · exact absurd rfl hearly
  · exact absurd rfl hlate

/-- A count that comes back to zero makes the gauge forget its least and its greatest reading and its
sum, and with them how many readings there were. -/
theorem full_count_forgets : (∀ k ∈ [halfway, halfway, single 3], k.Seen) ∧
    [halfway, single 3].foldl merge halfway = single 3 ∧
    ¬ Summary ([halfway, single 3].foldl merge halfway) [halfway, halfway, single 3] ∧
    total [halfway, halfway, single 3] = UInt64.size + 1 := by
  refine ⟨seen_halfway_halfway_three, rfl, fun h => ?_, rfl⟩
  have hle : (3 : Float) ≤ 1 := h.min.2 ⟨halfway, List.mem_cons_self, rfl⟩
  exact absurd hle (by decide +kernel)

end Telemetry.Gauge

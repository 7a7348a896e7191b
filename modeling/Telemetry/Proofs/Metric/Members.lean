import Mathlib.Tactic.Tauto
import Telemetry.Metric.Value

/-!
# Sets of members

A set is determined by its members (`ext_mem`), so building one from a list forgets order and
repetition, and a union has the members of both sides.
-/

namespace Telemetry.Members

variable {m : UInt32} {s t : Members}

/-- **Sets with the same members are equal.** -/
theorem ext_mem (h : ∀ m, m ∈ s.toList ↔ m ∈ t.toList) : s = t := by
  obtain ⟨s, hs⟩ := s
  obtain ⟨t, ht⟩ := t
  have hperm : s.Perm t := by
    apply (List.perm_ext_iff_of_nodup ?_ ?_).mpr h
    · exact hs.imp fun hlt => UInt32.ne_of_lt hlt
    · exact ht.imp fun hlt => UInt32.ne_of_lt hlt
  have heq : s = t := by
    apply hperm.eq_of_pairwise _ hs ht
    intro a b _ _ hab hba
    exact absurd hba (UInt32.lt_asymm hab)
  subst heq
  rfl

theorem mem_insert {x : UInt32} : x ∈ (s.insert m).toList ↔ x = m ∨ x ∈ s.toList :=
  mem_insertInto

theorem mem_foldl_insert {ms : List UInt32} {x : UInt32} :
    x ∈ (ms.foldl (fun s m => s.insert m) s).toList ↔ x ∈ s.toList ∨ x ∈ ms := by
  induction ms generalizing s with
  | nil => simp
  | cons m rest ih =>
    rw [List.foldl_cons, ih, mem_insert, List.mem_cons]
    tauto

theorem mem_ofList {ms : List UInt32} : m ∈ (ofList ms).toList ↔ m ∈ ms := by
  rw [ofList, mem_foldl_insert]
  simp [empty]

theorem mem_union : m ∈ (s.union t).toList ↔ m ∈ s.toList ∨ m ∈ t.toList :=
  mem_foldl_insert

/-- A set is built from its own members. -/
theorem ofList_toList (s : Members) : ofList s.toList = s :=
  ext_mem fun _ => mem_ofList

end Telemetry.Members

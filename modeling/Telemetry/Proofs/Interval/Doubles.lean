import Telemetry.Proofs.Binary64.Zeros
import Telemetry.Proofs.Interval

/-!
# Intervals of doubles

Finite doubles are joined as the rationals are that they stand for (`exact_pieces`), so only the
lengths of the pieces and their sum are rounded.  That sum depends on the pieces as rationals alone, and
so not on the order of the intervals (`covered_perm`).
-/

namespace Telemetry.Interval

open Binary64

variable {intervals others : List (Float × Float)}

/-- Every end is a finite double. -/
def Finite (intervals : List (Float × Float)) : Prop :=
  ∀ i ∈ intervals, isFinite i.1 = true ∧ isFinite i.2 = true

theorem Finite.pieces (h : Finite intervals) : Finite (pieces intervals) :=
  @ends_of_mem_pieces Float _ _ _ _ (isFinite · = true) intervals h

/-- Intervals of doubles as intervals of the rationals that they stand for. -/
def exact (intervals : List (Float × Float)) : List (ℚ × ℚ) := intervals.map (Prod.map value value)

theorem keeps_value : Keeps value (isFinite · = true) :=
  ⟨fun _ _ hx hy => (lt_iff hx hy).symm, fun _ _ hx hy => (le_iff hx hy).symm⟩

/-- **Doubles are joined as the rationals that they stand for.** -/
theorem exact_pieces (h : Finite intervals) : exact (pieces intervals) = pieces (exact intervals) :=
  keeps_value.map_pieces h

/-- The sum of the lengths does not tell apart doubles of one value. -/
theorem foldl_lengths_congr {total : Float} (htotal : ¬ IsNegZero total) (h : Finite intervals)
    (hothers : Finite others) (heq : exact intervals = exact others) :
    intervals.foldl (fun total p => total + (p.2 - p.1)) total =
      others.foldl (fun total p => total + (p.2 - p.1)) total := by
  induction intervals generalizing others total with
  | nil =>
    obtain rfl : others = [] := List.map_eq_nil_iff.mp heq.symm
    rfl
  | cons p rest ih =>
    cases others with
    | nil => cases heq
    | cons q later =>
      obtain ⟨hp, hrest⟩ := List.forall_mem_cons.mp h
      obtain ⟨hq, hlater⟩ := List.forall_mem_cons.mp hothers
      obtain ⟨hends, heq⟩ := List.cons_eq_cons.mp heq
      obtain ⟨hbegin, hend⟩ := Prod.mk.inj hends
      have hlength : total + (p.2 - p.1) = total + (q.2 - q.1) :=
        ((alike_of_value_eq hp.2 hq.2 hend).sub (alike_of_value_eq hp.1 hq.1 hbegin)).add_left htotal
      rw [List.foldl_cons, List.foldl_cons, hlength]
      exact ih (add_ne_negZero htotal _) hrest hlater heq

/-- **The covered length does not depend on the order of the intervals**, to the last bit. -/
theorem covered_perm (h : Finite intervals) (hperm : intervals.Perm others) :
    covered intervals = covered others := by
  have hothers : Finite others := fun i hi => h i (hperm.mem_iff.mpr hi)
  refine foldl_lengths_congr ?_ h.pieces hothers.pieces ?_
  · exact nofun
  · rw [exact_pieces h, exact_pieces hothers]
    exact pieces_eq_of_perm (hperm.map _)

end Telemetry.Interval

import Mathlib
import Telemetry.Proofs.Binary64.Rounding

/-!
# Finite doubles

A double is its sign and its magnitude bits, and a finite one is in addition a mantissa and an
exponent in fixed ranges (`Finite.WF`) that its magnitude bits determine and are determined by.  The
double nearest to the value of a finite double is that double (`nearestBits_ratio`).
-/

namespace Telemetry.Binary64

/-! ## Bits -/

theorem ofSignBits_magnitudeBits (x : Float) : ofSignBits (isNegative x) (magnitudeBits x) = x := by
  have hlt : x.toBits.toNat < 2 * signWeight := x.toBits.toNat_lt
  have hbits : (if isNegative x then signWeight + magnitudeBits x else magnitudeBits x) =
      x.toBits.toNat := by
    simp only [isNegative, magnitudeBits, signWeight, decide_eq_true_eq] at hlt ⊢
    split <;> omega
  rw [ofSignBits, hbits, UInt64.ofNat_toNat, Float.ofBits_toBits]

/-! ## Mantissa and exponent -/

namespace Finite

/-- The ranges of mantissa and exponent: a full mantissa, or the least exponent. -/
structure WF (x : Finite) : Prop where
  lt : x.mantissa < 2 * binade
  full : binade ≤ x.mantissa ∨ x.exponent = -1074
  least : -1074 ≤ x.exponent
  greatest : x.exponent ≤ 971

/-- The magnitude bits of a mantissa and an exponent. -/
def bits (x : Finite) : Nat := (x.exponent + 1074).toNat * binade + x.mantissa

/-- The magnitude. -/
def magnitude (x : Finite) : ℚ := x.mantissa * (2 : ℚ) ^ x.exponent

theorem magnitude_nonneg (x : Finite) : 0 ≤ x.magnitude := by
  unfold magnitude
  positivity

theorem quotient_ratio (x : Finite) : quotient x.ratio = x.magnitude := by
  rw [ratio, quotient_scaled, magnitude, Nat.cast_two]

theorem ratio_snd_pos (x : Finite) : 0 < x.ratio.2 := scaled_snd_pos _ two_pos _

theorem ratio_fst_pos {x : Finite} (h : 0 < x.mantissa) : 0 < x.ratio.1 :=
  scaled_fst_pos h two_pos _

theorem bits_lt {x : Finite} (h : x.WF) : x.bits < infinityBits := by
  obtain ⟨hlt, -, hleast, hgreatest⟩ := h
  simp only [bits, infinityBits, binade] at *
  omega

theorem bits_pos {x : Finite} (h : 0 < x.mantissa) : 0 < x.bits := by
  unfold bits
  omega

end Finite

/-- The mantissa, the exponent and the sign of a finite double. -/
theorem finite?_eq_some {x : Float} {v : Finite} (h : finite? x = some v) :
    v.WF ∧ v.bits = magnitudeBits x ∧ v.negative = isNegative x := by
  unfold finite? at h
  dsimp only at h
  split at h
  · cases h
  · next hinf =>
    have hfraction : magnitudeBits x % binade < binade := Nat.mod_lt _ (by decide)
    have hdivision := Nat.div_add_mod (magnitudeBits x) binade
    split at h
    · next hzero =>
      obtain rfl := Option.some.inj h
      refine ⟨⟨?_, Or.inr rfl, le_refl _, by simp⟩, ?_, rfl⟩
      · dsimp only
        omega
      · simp only [Finite.bits, binade] at *
        omega
    · next hzero =>
      obtain rfl := Option.some.inj h
      refine ⟨⟨?_, Or.inl ?_, ?_, ?_⟩, ?_, rfl⟩
      all_goals simp only [Finite.bits, infinityBits, binade] at *
      all_goals omega

theorem finite?_isSome (x : Float) : (finite? x).isSome = isFinite x := by
  unfold finite? isFinite
  dsimp only
  split
  · next h => simpa using h
  · next h =>
    have hlt : magnitudeBits x < infinityBits := Nat.lt_of_not_le h
    split <;> simpa using hlt

/-- A double is the sign and the bits of its mantissa and exponent. -/
theorem ofSignBits_bits {x : Float} {v : Finite} (h : finite? x = some v) :
    ofSignBits v.negative v.bits = x := by
  obtain ⟨-, hbits, hneg⟩ := finite?_eq_some h
  rw [hbits, hneg, ofSignBits_magnitudeBits]

/-! ## Rounding a finite double -/

/-- **The double nearest to a finite double is the double itself.** -/
theorem nearestBits_ratio {x : Finite} (h : x.WF) : nearestBits x.ratio.1 x.ratio.2 = x.bits := by
  have hbits := x.bits_lt h
  have hden := x.ratio_snd_pos
  obtain ⟨hlt, hfull, hleast, hgreatest⟩ := h
  rcases Nat.eq_zero_or_pos x.mantissa with hzero | hpos
  · -- zero has no logarithm
    have hfst : x.ratio.1 = 0 := by
      rw [Finite.ratio, hzero, scaled]
      split
      · exact Nat.zero_mul _
      · rfl
    have hexp : x.exponent = -1074 := by
      simp only [binade] at hfull
      omega
    rw [hfst, nearestBits, if_pos rfl, Finite.bits, hzero, hexp]
    rfl
  · have hnum := Finite.ratio_fst_pos hpos
    have hlog : Int.log 2 (quotient x.ratio) = x.exponent + x.mantissa.log2 := by
      rw [Finite.quotient_ratio, Finite.magnitude, log_mul_zpow hpos]
    have hlast : lastBit x.ratio.1 x.ratio.2 = x.exponent := by
      rw [lastBit_eq hnum hden, hlog]
      have hlt53 : x.mantissa.log2 < 53 := (Nat.log2_lt hpos.ne').mpr hlt
      rcases hfull with hfull | hexp
      · have hge52 : 52 ≤ x.mantissa.log2 := (Nat.le_log2 hpos.ne').mpr hfull
        omega
      · omega
    have hmantissa : roundedMantissa x.ratio.1 x.ratio.2 = x.mantissa := by
      unfold roundedMantissa
      rw [hlast, ← roundHalfEven_mul_self x.mantissa Nat.one_pos]
      refine roundHalfEven_congr (inUnits_snd_pos _ hden two_pos _) Nat.one_pos ?_
      rw [quotient_inUnits, Finite.quotient_ratio, Finite.magnitude, Nat.cast_two,
        mul_div_assoc, div_self (zpow_ne_zero _ two_ne_zero), quotient]
      simp
    rw [nearestBits_eq hnum, hlast, hmantissa]
    exact Nat.min_eq_left (Nat.le_of_lt hbits)

namespace Finite

theorem truncate_eq_floor (x : Finite) : x.truncate = ⌊x.magnitude⌋₊ := by
  rw [← quotient_ratio, quotient, Nat.floor_div_eq_div]
  rfl

end Finite

end Telemetry.Binary64

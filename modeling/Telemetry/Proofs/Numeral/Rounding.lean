import Telemetry.Numeral
import Telemetry.Proofs.Binary64.Finite

/-!
# The value of a numeral

`Numeral.bits` answers for extreme exponents without rounding.  It answers as rounding would
(`bits_eq`), so the bits of a numeral depend on its value alone.
-/

namespace Telemetry

open Binary64

namespace Numeral

/-- The magnitude. -/
def value (n : Numeral) : ℚ := n.coefficient * (n.base : ℚ) ^ n.exponent

theorem ratio_snd_pos {n : Numeral} (h : 2 ≤ n.base) : 0 < n.ratio.2 := by
  unfold ratio
  split
  · exact Nat.one_pos
  · exact scaled_snd_pos _ (by omega) _

theorem quotient_ratio (n : Numeral) : quotient n.ratio = n.value := by
  unfold ratio value
  split
  · next h => simp [quotient, h]
  · exact quotient_scaled _ _ _

theorem two_pow_le_value {n : Numeral} (hbase : 2 ≤ n.base) (h : n.huge = true) :
    (2 : ℚ) ^ (1024 : Int) ≤ n.value := by
  obtain ⟨hc, he⟩ : n.coefficient ≠ 0 ∧ 1100 < n.exponent := by simpa [huge] using h
  have hcq : (1 : ℚ) ≤ n.coefficient := by exact_mod_cast Nat.pos_of_ne_zero hc
  have hbq : (2 : ℚ) ≤ n.base := by exact_mod_cast hbase
  have hpow : (0 : ℚ) < (n.base : ℚ) ^ n.exponent := zpow_pos (by linarith) _
  obtain ⟨k, hk⟩ := Int.eq_ofNat_of_zero_le (a := n.exponent) (by omega)
  calc (2 : ℚ) ^ (1024 : Int) ≤ (2 : ℚ) ^ n.exponent :=
        zpow_le_zpow_right₀ one_le_two (by omega)
    _ ≤ (n.base : ℚ) ^ n.exponent := by
        rw [hk, zpow_natCast, zpow_natCast]
        exact pow_le_pow_left₀ zero_le_two hbq k
    _ = 1 * (n.base : ℚ) ^ n.exponent := (one_mul _).symm
    _ ≤ n.value := mul_le_mul_of_nonneg_right hcq hpow.le

theorem value_lt_two_pow {n : Numeral} (hbase : 2 ≤ n.base) (h : n.minute = true) :
    n.value < (2 : ℚ) ^ (-1075 : Int) := by
  obtain ⟨hc, he⟩ : n.coefficient ≠ 0 ∧ n.exponent < -(1100 + (n.coefficient.log2 : Int)) := by
    simpa [minute] using h
  have hcq : (n.coefficient : ℚ) < (2 : ℚ) ^ ((n.coefficient.log2 : Int) + 1) := by
    have hlog : n.coefficient < 2 ^ (n.coefficient.log2 + 1) := Nat.lt_log2_self
    exact_mod_cast hlog
  have hbq : (2 : ℚ) ≤ n.base := by exact_mod_cast hbase
  have hpow : (0 : ℚ) < (n.base : ℚ) ^ n.exponent := zpow_pos (by linarith) _
  obtain ⟨k, hk⟩ := Int.eq_ofNat_of_zero_le (a := -n.exponent) (by omega)
  obtain hk' : n.exponent = -(k : Int) := by omega
  have hbase' : (n.base : ℚ) ^ n.exponent ≤ (2 : ℚ) ^ n.exponent := by
    rw [hk', zpow_neg, zpow_neg, zpow_natCast, zpow_natCast]
    exact inv_anti₀ (pow_pos two_pos k) (pow_le_pow_left₀ zero_le_two hbq k)
  calc n.value < (2 : ℚ) ^ ((n.coefficient.log2 : Int) + 1) * (n.base : ℚ) ^ n.exponent :=
        mul_lt_mul_of_pos_right hcq hpow
    _ ≤ (2 : ℚ) ^ ((n.coefficient.log2 : Int) + 1) * (2 : ℚ) ^ n.exponent :=
        mul_le_mul_of_nonneg_left hbase' (zpow_pos two_pos _).le
    _ = (2 : ℚ) ^ ((n.coefficient.log2 : Int) + 1 + n.exponent) :=
        (zpow_add₀ two_ne_zero _ _).symm
    _ ≤ (2 : ℚ) ^ (-1075 : Int) := zpow_le_zpow_right₀ one_le_two (by omega)

/-- **The bits of a numeral are those of the nearest double**, also where they are not computed by
rounding. -/
theorem bits_eq {n : Numeral} (hbase : 2 ≤ n.base) :
    n.bits = nearestBits n.ratio.1 n.ratio.2 := by
  have hden := ratio_snd_pos hbase
  unfold bits
  split
  · next h =>
    refine (nearestBits_of_huge hden ?_).symm
    rw [Prod.mk.eta, quotient_ratio]
    exact two_pow_le_value hbase h
  · split
    · next h =>
      refine (nearestBits_of_minute hden ?_).symm
      rw [Prod.mk.eta, quotient_ratio]
      exact value_lt_two_pow hbase h
    · rfl

/-- Numerals of one value have the same bits as any fraction of that value. -/
theorem bits_eq_nearestBits {n : Numeral} (hbase : 2 ≤ n.base) {num den : Nat} (hden : 0 < den)
    (h : n.value = quotient (num, den)) : n.bits = nearestBits num den := by
  rw [bits_eq hbase]
  refine nearestBits_congr (ratio_snd_pos hbase) hden ?_
  rw [Prod.mk.eta, quotient_ratio, h]

/-- A numeral of the magnitude of a finite double has its bits. -/
theorem bits_of_magnitude {n : Numeral} (hbase : 2 ≤ n.base) {x : Finite} (hx : x.WF)
    (h : n.value = x.magnitude) : n.bits = x.bits := by
  rw [← nearestBits_ratio hx]
  refine bits_eq_nearestBits hbase x.ratio_snd_pos ?_
  rw [Prod.mk.eta, Finite.quotient_ratio, h]

end Numeral

end Telemetry

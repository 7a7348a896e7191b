import Telemetry.Proofs.Binary64.Magnitude

/-!
# Rounding to the nearest double

`nearest` rounds a rational to 53 bits, or to fewer where the doubles end.  It keeps the order
(`nearest_mono`) and the numbers that are doubles already (`nearestMagnitude_of_fits`).  The logical model of
doubles rounds with a shift that keeps two residual bits, and what it gets is `nearest` of the number that
it rounds (`round_nearest`).
-/

namespace Telemetry.Binary64

open Float.Model Float.Model.UnpackedFloat

/-! ## The nearest double as a rational -/

/-- A rational that is not negative, rounded to the mantissas of doubles. -/
def nearestMagnitude (v : ℚ) : ℚ :=
  roundedMantissa v.num.toNat v.den * 2 ^ lastBit v.num.toNat v.den

/-- A rational rounded to the mantissas of doubles. -/
def nearest (v : ℚ) : ℚ := if v < 0 then -nearestMagnitude (-v) else nearestMagnitude v

theorem quotient_num_den {v : ℚ} (h : 0 ≤ v) : quotient (v.num.toNat, v.den) = v := by
  have hnum : ((v.num.toNat : Nat) : ℚ) = v.num := by
    exact_mod_cast Int.toNat_of_nonneg (Rat.num_nonneg.mpr h)
  rw [quotient, hnum, Rat.num_div_den]

theorem quotient_nonneg (num den : Nat) : 0 ≤ quotient (num, den) := by
  unfold quotient
  positivity

theorem nearestMagnitude_quotient {num den : Nat} (hnum : 0 < num) (hden : 0 < den) :
    nearestMagnitude (quotient (num, den)) = roundedMantissa num den * 2 ^ lastBit num den := by
  have hv := (quotient_num_den (quotient_nonneg num den)).symm
  obtain ⟨hlast, hmantissa⟩ := roundedMantissa_congr hnum hden (Rat.den_pos _) hv
  rw [nearestMagnitude, hlast, hmantissa]

theorem nearestMagnitude_zero : nearestMagnitude 0 = 0 := by
  have hmantissa : roundedMantissa (0 : ℚ).num.toNat (0 : ℚ).den = 0 := by decide
  rw [nearestMagnitude, hmantissa, Nat.cast_zero, zero_mul]

theorem nearestMagnitude_nonneg (v : ℚ) : 0 ≤ nearestMagnitude v := by
  unfold nearestMagnitude
  positivity

/-- **Rounding keeps the order.** -/
theorem nearestMagnitude_mono {v w : ℚ} (hv : 0 ≤ v) (h : v ≤ w) :
    nearestMagnitude v ≤ nearestMagnitude w := by
  rcases hv.eq_or_lt with rfl | hpos
  · rw [nearestMagnitude_zero]
    exact nearestMagnitude_nonneg w
  · have hwpos := hpos.trans_le h
    obtain ⟨num, den, hnum, hden, rfl⟩ : ∃ num den, 0 < num ∧ 0 < den ∧ v = quotient (num, den) := by
      refine ⟨v.num.toNat, v.den, ?_, v.den_pos, (quotient_num_den hpos.le).symm⟩
      have := Rat.num_pos.mpr hpos
      omega
    obtain ⟨num', den', hnum', hden', rfl⟩ : ∃ num den, 0 < num ∧ 0 < den ∧ w = quotient (num, den) := by
      refine ⟨w.num.toNat, w.den, ?_, w.den_pos, (quotient_num_den hwpos.le).symm⟩
      have := Rat.num_pos.mpr hwpos
      omega
    rw [nearestMagnitude_quotient hnum hden, nearestMagnitude_quotient hnum' hden']
    have hlast : lastBit num den ≤ lastBit num' den' := by
      have hlog := Int.log_mono_right (b := 2) hpos h
      rw [lastBit_eq hnum hden, lastBit_eq hnum' hden']
      omega
    obtain hlast | hlast := hlast.eq_or_lt
    · -- the same last bit
      have hmantissa : roundedMantissa num den ≤ roundedMantissa num' den' := by
        unfold roundedMantissa
        refine roundHalfEven_mono (inUnits_snd_pos _ hden two_pos _) (inUnits_snd_pos _ hden' two_pos _) ?_
        rw [quotient_inUnits, quotient_inUnits, hlast]
        gcongr
      rw [hlast]
      gcongr
    · -- a power of two is between the two
      have hfull := (roundedMantissa_bounds hnum' hden').2.resolve_left
        (by have := neg_1074_le_lastBit num den; omega)
      calc (roundedMantissa num den : ℚ) * 2 ^ lastBit num den
          ≤ (2 * binade : Nat) * 2 ^ lastBit num den := by
            gcongr
            exact (roundedMantissa_bounds hnum hden).1
        _ = binade * 2 ^ (lastBit num den + 1) := by
            rw [zpow_add₀ two_ne_zero, zpow_one]
            push_cast
            ring
        _ ≤ roundedMantissa num' den' * 2 ^ lastBit num' den' := by
            gcongr
            · exact one_le_two
            · exact hlast

theorem nearest_neg (v : ℚ) : nearest (-v) = -nearest v := by
  unfold nearest
  rcases lt_trichotomy v 0 with h | rfl | h
  · rw [if_neg (by linarith), if_pos h, neg_neg]
  · simp [nearestMagnitude_zero]
  · rw [if_pos (by linarith), if_neg (by linarith), neg_neg]

theorem nearest_of_nonneg {v : ℚ} (h : 0 ≤ v) : nearest v = nearestMagnitude v := if_neg (not_lt.mpr h)

/-- **Rounding keeps the order**, on both sides of zero. -/
theorem nearest_mono : Monotone nearest := by
  intro v w h
  rcases lt_or_ge v 0 with hv | hv <;> rcases lt_or_ge w 0 with hw | hw
  · rw [nearest, nearest, if_pos hv, if_pos hw]
    exact neg_le_neg (nearestMagnitude_mono (by linarith) (by linarith))
  · rw [nearest, if_pos hv, nearest_of_nonneg hw]
    exact (neg_nonpos.mpr (nearestMagnitude_nonneg _)).trans (nearestMagnitude_nonneg _)
  · linarith
  · rw [nearest_of_nonneg hv, nearest_of_nonneg hw]
    exact nearestMagnitude_mono hv h

/-- A rational in units of its last bit is rounded to a whole number of them. -/
theorem nearestMagnitude_eq {v : ℚ} {num den : Nat} {q : Int} (hv : 0 < v) (hden : 0 < den)
    (hlast : q = max (-1074) (Int.log 2 v - 52)) (hunits : v = quotient (num, den) * 2 ^ q) :
    nearestMagnitude v = roundHalfEven num den * 2 ^ q := by
  have hnum := Rat.num_pos.mpr hv
  have hbit : lastBit v.num.toNat v.den = q := by
    rw [lastBit_eq (by omega) v.den_pos, quotient_num_den hv.le, hlast]
  have hmantissa : roundedMantissa v.num.toNat v.den = roundHalfEven num den := by
    unfold roundedMantissa
    refine roundHalfEven_congr (inUnits_snd_pos _ v.den_pos two_pos _) hden ?_
    rw [quotient_inUnits, quotient_num_den hv.le, hbit, Nat.cast_two, hunits,
      mul_div_cancel_right₀ _ (zpow_ne_zero q two_ne_zero)]
  rw [nearestMagnitude, hbit, hmantissa]

/-- **Rounding keeps what a double can hold**: a mantissa of 53 bits and an exponent not below the
least one. -/
theorem nearestMagnitude_of_fits {m : Nat} {e : Int} (hm : m < 2 ^ 53) (he : -1074 ≤ e) :
    nearestMagnitude (m * 2 ^ e) = m * 2 ^ e := by
  rcases Nat.eq_zero_or_pos m with rfl | hpos
  · rw [Nat.cast_zero, zero_mul, nearestMagnitude_zero]
  · have hlog : m.log2 < 53 := (Nat.log2_lt hpos.ne').mpr hm
    obtain ⟨q, hq⟩ : ∃ q : Int, q = max (-1074) (Int.log 2 ((m : ℚ) * 2 ^ e) - 52) := ⟨_, rfl⟩
    have hlast : q ≤ e := by
      rw [hq, log_mul_zpow hpos]
      omega
    obtain ⟨k, hk⟩ := Int.eq_ofNat_of_zero_le (Int.sub_nonneg_of_le hlast)
    have hscale : (m : ℚ) * 2 ^ e = (m * 2 ^ k : Nat) * 2 ^ q := by
      rw [Nat.cast_mul, Nat.cast_pow, Nat.cast_two, mul_assoc, ← zpow_natCast, ← zpow_add₀ two_ne_zero]
      congr 2
      omega
    have hround := roundHalfEven_mul_self (m * 2 ^ k) Nat.one_pos
    rw [Nat.mul_one] at hround
    have hnearest := @nearestMagnitude_eq _ (m * 2 ^ k) 1 q (by positivity) Nat.one_pos hq
    rw [hround, quotient, Nat.cast_one, div_one] at hnearest
    rw [hnearest hscale, hscale]

/-! ## The model's rounding -/

section Rounding

variable {m : Nat} {e : Int}

/-- A mantissa that holds the whole part of a quotient, with one bit for a rest of one half or more and one
for a rest that is neither zero nor one half. -/
structure Holds (num den : Nat) (em : ExtendedMantissa) : Prop where
  mantissa : em.mantissa = num / den
  round : em.roundBit = true ↔ den ≤ 2 * (num % den)
  sticky : em.stickyBit = true ↔ num % den ≠ 0 ∧ 2 * (num % den) ≠ den

theorem holds_ofMantissaAndAccuracy (num : Nat) {den : Nat} (hden : 0 < den) :
    Holds num den (.ofMantissaAndAccuracy (num / den) (accuracyOfFraction (num % den) den)) := by
  unfold accuracyOfFraction
  split
  · next hzero => exact ⟨rfl, by simp [ExtendedMantissa.ofMantissaAndAccuracy]; omega,
      by simp [ExtendedMantissa.ofMantissaAndAccuracy, hzero]⟩
  · next hzero =>
    rcases hc : compare (2 * (num % den)) den
    · have hlt := Nat.compare_eq_lt.mp hc
      exact ⟨rfl, by simp [ExtendedMantissa.ofMantissaAndAccuracy]; omega,
        by simp [ExtendedMantissa.ofMantissaAndAccuracy]; omega⟩
    · have heq := Nat.compare_eq_eq.mp hc
      exact ⟨rfl, by simp [ExtendedMantissa.ofMantissaAndAccuracy]; omega,
        by simp [ExtendedMantissa.ofMantissaAndAccuracy]; omega⟩
    · have hgt := Nat.compare_eq_gt.mp hc
      exact ⟨rfl, by simp [ExtendedMantissa.ofMantissaAndAccuracy]; omega,
        by simp [ExtendedMantissa.ofMantissaAndAccuracy]; omega⟩

namespace Holds

variable {num den : Nat} {em : ExtendedMantissa}

theorem shiftRightOne (h : Holds num den em) (hden : 0 < den) : Holds num (den * 2) em.shiftRightOne := by
  have hrest := Nat.mod_lt num hden
  have hsplit : num % (den * 2) = num % den + den * (num / den % 2) := Nat.mod_mul
  obtain ⟨hmantissa, hround, hsticky⟩ := h
  rw [ExtendedMantissa.shiftRightOne, hmantissa]
  rcases Nat.mod_two_eq_zero_or_one (num / den) with hbit | hbit <;> rw [hbit] at hsplit
  · refine ⟨Nat.div_div_eq_div_mul .., ?_, ?_⟩
    · rw [hbit]
      simp
      omega
    · rw [Bool.or_eq_true, hround, hsticky]
      omega
  · refine ⟨Nat.div_div_eq_div_mul .., ?_, ?_⟩
    · rw [hbit]
      simp
      omega
    · rw [Bool.or_eq_true, hround, hsticky]
      omega

theorem shiftRight (h : Holds num den em) (hden : 0 < den) (k : Nat) :
    Holds num (den * 2 ^ k) (em >>> k) := by
  induction k with
  | zero =>
    rw [Nat.pow_zero, Nat.mul_one]
    exact h
  | succ k ih =>
    rw [Nat.pow_succ, ← Nat.mul_assoc]
    exact ih.shiftRightOne (Nat.mul_pos hden (Nat.two_pow_pos k))

/-- **The model rounds to the nearest mantissa**, a tie to the even one. -/
theorem roundedMantissa_eq (h : Holds num den em) (hden : 0 < den) :
    em.roundedMantissa = roundHalfEven num den := by
  have hrest := Nat.mod_lt num hden
  obtain ⟨hmantissa, hround, hsticky⟩ := h
  obtain ⟨m, round, sticky⟩ := em
  dsimp only at hmantissa hround hsticky
  subst hmantissa
  rw [ExtendedMantissa.roundedMantissa, roundHalfEven]
  generalize num / den = q
  generalize num % den = r at *
  cases round <;> cases sticky <;> simp only [Bool.false_eq_true, false_iff, true_iff] at hround hsticky
  · have hdown : ¬ (den < 2 * r ∨ 2 * r = den ∧ q % 2 = 1) := by omega
    simp [ExtendedMantissa.accuracy, Accuracy.roundToNearestEven, hdown]
  · have hdown : ¬ (den < 2 * r ∨ 2 * r = den ∧ q % 2 = 1) := by omega
    simp [ExtendedMantissa.accuracy, Accuracy.roundToNearestEven, hdown]
  · have htie : 2 * r = den := by omega
    rcases Nat.mod_two_eq_zero_or_one q with hq | hq <;>
      simp [ExtendedMantissa.accuracy, Accuracy.roundToNearestEven, htie, hq]
  · have hup : den < 2 * r := by omega
    simp [ExtendedMantissa.accuracy, Accuracy.roundToNearestEven, hup]

end Holds

/-- What an unpacked number stands for, where those that are no finite numbers count as zero. -/
def exact : UnpackedFloat → ℚ
  | .finite s m e _ => (s.apply m : Int) * 2 ^ e
  | _ => 0

theorem exact_zero (s : Sign) : exact (.zero s) = 0 := rfl

theorem exact_finite (s : Sign) (hm : 0 < m) : exact (.finite s m e hm) = (s.apply m : Int) * 2 ^ e := rfl

/-- Mantissa and exponent are those of a double, but for the greatest exponent: a full mantissa, or the
least exponent. -/
def Canonical : UnpackedFloat → Prop
  | .zero _ => True
  | .finite _ m e _ => m < 2 ^ 53 ∧ -1074 ≤ e ∧ (2 ^ 52 ≤ m ∨ e = -1074)
  | _ => False

/-- A mantissa that fits is left as it is, and one that rounding has carried to `2 ^ 53` is halved. -/
theorem exact_shiftToTargetExponent {r : Nat} {q : Int} (hr : r ≤ 2 ^ 53) (hq : -1074 ≤ q)
    (hfull : 2 ^ 52 ≤ r ∨ q = -1074) {m' : Nat} {e' : Int}
    (hm' : (shiftToTargetExponent .binary64 r q .exact).1.mantissa = m')
    (he' : (shiftToTargetExponent .binary64 r q .exact).2 = e') :
    (m' < 2 ^ 53 ∧ -1074 ≤ e' ∧ (2 ^ 52 ≤ m' ∨ e' = -1074)) ∧ (m' : ℚ) * 2 ^ e' = r * 2 ^ q := by
  rw [mantissa_shiftToTargetExponent] at hm'
  rw [exponent_shiftToTargetExponent] at he'
  rcases Nat.eq_or_lt_of_le hr with rfl | hlt
  · rw [Nat.log2_two_pow] at hm' he'
    have hshift : (max (((53 : Nat) : Int) + 1 + q - 53) (-1074) - q).toNat = 1 := by omega
    rw [hshift] at hm' he'
    obtain rfl : m' = 2 ^ 52 := hm'.symm
    obtain rfl : e' = q + 1 := he'.symm
    refine ⟨⟨by decide, by omega, Or.inl (le_refl _)⟩, ?_⟩
    rw [zpow_add₀ two_ne_zero]
    push_cast
    ring
  · have hlog : r.log2 < 53 := by
      rcases Nat.eq_zero_or_pos r with rfl | hpos
      · decide
      · exact (Nat.log2_lt hpos.ne').mpr hlt
    have hshift : (max ((r.log2 : Int) + 1 + q - 53) (-1074) - q).toNat = 0 := by omega
    rw [hshift, Nat.pow_zero, Nat.div_one] at hm'
    rw [hshift, Nat.cast_zero, Int.add_zero] at he'
    subst hm' he'
    exact ⟨⟨hlt, hq, hfull⟩, rfl⟩

theorem cast_apply (s : Sign) (m : Nat) : ((s.apply m : Int) : ℚ) = (s.apply 1 : Int) * m := by
  cases s <;> simp [Sign.apply]

theorem nearest_sign (s : Sign) {v : ℚ} (h : 0 ≤ v) :
    nearest ((s.apply 1 : Int) * v) = (s.apply 1 : Int) * nearestMagnitude v := by
  cases s with
  | positive => simp [Sign.apply, nearest_of_nonneg h]
  | negative => simp [Sign.apply, nearest_neg, nearest_of_nonneg h]

/-- The logarithm of a quotient is that of its whole part. -/
theorem log_quotient_mul_zpow {num den : Nat} (hden : 0 < den) (hwhole : num / den ≠ 0) (e : Int) :
    Int.log 2 (quotient (num, den) * 2 ^ e) = (num / den).log2 + e := by
  have hdenq : (0 : ℚ) < den := by exact_mod_cast hden
  have hlow : (2 : ℚ) ^ (num / den).log2 ≤ quotient (num, den) := by
    have hle := (Nat.le_div_iff_mul_le hden).mp (Nat.log2_self_le hwhole)
    rw [quotient, le_div_iff₀ hdenq]
    exact_mod_cast hle
  have hhigh : quotient (num, den) < (2 : ℚ) ^ ((num / den).log2 + 1) := by
    have hlt := (Nat.div_lt_iff_lt_mul hden).mp (Nat.lt_log2_self (n := num / den))
    rw [quotient, div_lt_iff₀ hdenq]
    exact_mod_cast hlt
  refine log_eq ?_ ?_
  · rw [zpow_add₀ two_ne_zero, zpow_natCast]
    gcongr
  · rw [add_right_comm, zpow_add₀ two_ne_zero, ← Nat.cast_add_one, zpow_natCast]
    gcongr

/-- The exponent after a shift that makes a quotient fit the format is that of its last bit. -/
theorem lastBit_shift {num den k : Nat} (hnum : 0 < num) (hden : 0 < den)
    (hk : e + k = max (((num / den).log2 : Int) + 1 + e - 53) (-1074)) :
    e + k = max (-1074) (Int.log 2 (quotient (num, den) * 2 ^ e) - 52) := by
  rcases Nat.eq_zero_or_pos (num / den) with hzero | hwhole
  · -- what is less than one is less than the least last bit
    have hlog : Int.log 2 (quotient (num, den) * 2 ^ e) < e := by
      have hpos : 0 < quotient (num, den) * 2 ^ e := mul_pos (quotient_pos hnum hden) (zpow_pos two_pos e)
      have hdenq : (0 : ℚ) < den := by exact_mod_cast hden
      have hlt : quotient (num, den) < 1 := by
        rw [quotient, div_lt_one hdenq]
        exact_mod_cast (Nat.div_eq_zero_iff_lt hden).mp hzero
      exact (Int.lt_zpow_iff_log_lt one_lt_two hpos).mp (mul_lt_of_lt_one_left (zpow_pos two_pos e) hlt)
    rw [hzero, Nat.log2_zero] at hk
    omega
  · rw [log_quotient_mul_zpow hden hwhole.ne']
    omega

/-- Rounded after that shift, a quotient has a full mantissa at most, or carries into the next bit. -/
theorem roundHalfEven_shift {num den k : Nat}
    (hk : e + k = max (((num / den).log2 : Int) + 1 + e - 53) (-1074)) :
    roundHalfEven num (den * 2 ^ k) ≤ 2 ^ 53 ∧
      (2 ^ 52 ≤ roundHalfEven num (den * 2 ^ k) ∨ e + k = -1074) := by
  have hpow := Nat.two_pow_pos k
  constructor
  · have hlt : num / den < 2 ^ 53 * 2 ^ k := by
      rw [← Nat.pow_add]
      exact Nat.lt_of_lt_of_le Nat.lt_log2_self (Nat.pow_le_pow_right two_pos (by omega))
    refine (roundHalfEven_le _ _).trans ?_
    rw [← Nat.div_div_eq_div_mul]
    exact (Nat.div_lt_iff_lt_mul hpow).mpr hlt
  · rcases eq_or_ne (e + k) (-1074) with hleast | hleast
    · exact Or.inr hleast
    · left
      have hwhole : num / den ≠ 0 := by
        intro hzero
        rw [hzero, Nat.log2_zero] at hk
        omega
      refine le_trans ?_ (le_roundHalfEven _ _)
      rw [← Nat.div_div_eq_div_mul, Nat.le_div_iff_mul_le hpow, ← Nat.pow_add]
      exact (Nat.pow_le_pow_right two_pos (by omega)).trans (Nat.log2_self_le hwhole)

/-- **The model rounds a quotient with enough bits to the nearest double.** -/
theorem roundWithAccuracy_nearest (s : Sign) {num den : Nat} (hnum : 0 < num) (hden : 0 < den)
    (hlong : 52 ≤ (num / den).log2 ∨ e ≤ -1074) {u : UnpackedFloat}
    (hu : roundWithAccuracy .binary64 s (num / den) e (accuracyOfFraction (num % den) den) = u) :
    Canonical u ∧ exact u = nearest ((s.apply 1 : Int) * (quotient (num, den) * 2 ^ e)) := by
  obtain ⟨k, hk⟩ : ∃ k : Nat, e + k = max (((num / den).log2 : Int) + 1 + e - 53) (-1074) :=
    ⟨(max (((num / den).log2 : Int) + 1 + e - 53) (-1074) - e).toNat, by omega⟩
  have hpos : 0 < quotient (num, den) * 2 ^ e := mul_pos (quotient_pos hnum hden) (zpow_pos two_pos e)
  have hden' := Nat.mul_pos hden (Nat.two_pow_pos k)
  have hfirst : shiftToTargetExponent .binary64 (num / den) e (accuracyOfFraction (num % den) den) =
      (ExtendedMantissa.ofMantissaAndAccuracy (num / den) (accuracyOfFraction (num % den) den) >>> k,
        e + k) := by
    have hshift : (max (((num / den).log2 : Int) + 1 + e - 53) (-1074) - e).toNat = k := by omega
    unfold shiftToTargetExponent shiftToExponent
    dsimp only
    rw [targetExponent_eq, totalExponent, hshift]
  have hround := ((holds_ofMantissaAndAccuracy num hden).shiftRight hden k).roundedMantissa_eq hden'
  obtain ⟨hle, hfull⟩ := roundHalfEven_shift hk
  obtain ⟨hfits, hexact⟩ := exact_shiftToTargetExponent hle (by omega) hfull rfl rfl
  have hunits : quotient (num, den) * 2 ^ e = quotient (num, den * 2 ^ k) * 2 ^ (e + k) := by
    rw [zpow_add₀ two_ne_zero, zpow_natCast, quotient, quotient]
    push_cast
    field_simp
  rw [nearest_sign s hpos.le, nearestMagnitude_eq hpos hden' (lastBit_shift hnum hden hk) hunits,
    ← hexact, ← hu]
  unfold roundWithAccuracy
  rw [hfirst]
  dsimp only
  rw [hround]
  split
  · next hzero =>
    rw [hzero, Nat.cast_zero, zero_mul, mul_zero]
    exact ⟨trivial, rfl⟩
  · refine ⟨hfits, ?_⟩
    rw [exact, cast_apply, mul_assoc]

theorem quotient_one (m : Nat) : quotient (m, 1) = m := by
  rw [quotient, Nat.cast_one, div_one]

/-- The same for a mantissa without a rest. -/
theorem roundWithAccuracy_exact_nearest (s : Sign) (hm : 0 < m) (hlong : 52 ≤ m.log2 ∨ e ≤ -1074) :
    Canonical (roundWithAccuracy .binary64 s m e .exact) ∧
      exact (roundWithAccuracy .binary64 s m e .exact) = nearest ((s.apply m : Int) * 2 ^ e) := by
  have hwhole : m / 1 = m := Nat.div_one m
  have hrest : accuracyOfFraction (m % 1) 1 = .exact := by
    rw [Nat.mod_one]
    rfl
  rw [cast_apply, mul_assoc, ← quotient_one]
  exact roundWithAccuracy_nearest s hm Nat.one_pos (by rwa [hwhole]) (by rw [hwhole, hrest])

/-- A mantissa that is shifted to a smaller exponent stands for the same number. -/
theorem apply_shiftLeft (s : Sign) (m n : Nat) (e : Int) :
    ((s.apply (m <<< n : Nat) : Int) : ℚ) * 2 ^ (e - n) = (s.apply m : Int) * 2 ^ e := by
  rw [cast_apply, cast_apply, mul_assoc, mul_assoc, Nat.shiftLeft_eq, Nat.cast_mul, Nat.cast_pow,
    Nat.cast_two, mul_assoc (m : ℚ), ← zpow_natCast, ← zpow_add₀ two_ne_zero, add_sub_cancel]

/-- **The model rounds any mantissa to the nearest double.** -/
theorem round_nearest (s : Sign) (hm : 0 < m) :
    Canonical (UnpackedFloat.round .binary64 s m e) ∧
      exact (UnpackedFloat.round .binary64 s m e) = nearest ((s.apply m : Int) * 2 ^ e) := by
  unfold UnpackedFloat.round decreaseExponent
  dsimp only
  rw [targetExponent_eq, totalExponent]
  generalize hn : (e - max ((m.log2 : Int) + 1 + e - 53) (-1074)).toNat = n
  have hpos : 0 < m <<< n := by
    rw [Nat.shiftLeft_eq]
    exact Nat.mul_pos hm (Nat.two_pow_pos n)
  have hround := @roundWithAccuracy_exact_nearest (m <<< n) (e - n) s hpos (by
    rw [log2_shiftLeft hm]
    omega)
  rw [apply_shiftLeft] at hround
  exact hround

theorem normalize_nearest (i : Int) (e : Int) (zero : Sign) :
    Canonical (UnpackedFloat.normalize .binary64 i e zero) ∧
      exact (UnpackedFloat.normalize .binary64 i e zero) = nearest (i * 2 ^ e) := by
  unfold UnpackedFloat.normalize
  split
  · next hc =>
    have hneg := Int.compare_eq_lt.mp hc
    have happly : Sign.negative.apply ((-i).toNat : Int) = i := by
      rw [Int.toNat_of_nonneg (by omega)]
      exact Int.neg_neg i
    have hround := @round_nearest (-i).toNat e .negative (by omega)
    rwa [happly] at hround
  · next hc =>
    obtain rfl := Int.compare_eq_eq.mp hc
    rw [Int.cast_zero, zero_mul, nearest_of_nonneg (le_refl 0), nearestMagnitude_zero]
    exact ⟨trivial, rfl⟩
  · next hc =>
    have hpos := Int.compare_eq_gt.mp hc
    have happly : Sign.positive.apply (i.toNat : Int) = i := Int.toNat_of_nonneg (by omega)
    have hround := @round_nearest i.toNat e .positive (by omega)
    rwa [happly] at hround

end Rounding

end Telemetry.Binary64

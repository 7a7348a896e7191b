import Mathlib.Algebra.Order.Field.Power
import Mathlib.Data.Int.Log
import Mathlib.Data.Rat.Floor
import Mathlib.Tactic.FieldSimp
import Mathlib.Tactic.Linarith
import Mathlib.Tactic.Positivity
import Telemetry.Binary64

/-!
# Rounding a rational

`nearestBits` computes with numerators and denominators.  Here its parts are read as functions of the
rational: `floorLog2` is its binary logarithm, and rounding does not depend on the fraction it is
given (`nearestBits_congr`).  The result is a mantissa in a known range at a known exponent
(`nearestBits_eq`), which settles the two ends of the finite doubles.
-/

namespace Telemetry.Binary64

/-! ## Fractions -/

/-- The rational of a numerator and a denominator. -/
def quotient (p : Nat × Nat) : ℚ := p.1 / p.2

theorem scaled_snd_pos (c : Nat) {b : Nat} (hb : 0 < b) (e : Int) : 0 < (scaled c b e).2 := by
  unfold scaled
  split
  · exact Nat.one_pos
  · exact Nat.pow_pos hb

theorem scaled_fst_pos {c b : Nat} (hc : 0 < c) (hb : 0 < b) (e : Int) : 0 < (scaled c b e).1 := by
  unfold scaled
  split
  · exact Nat.mul_pos hc (Nat.pow_pos hb)
  · exact hc

theorem quotient_scaled (c b : Nat) (e : Int) : quotient (scaled c b e) = c * (b : ℚ) ^ e := by
  unfold scaled quotient
  split
  · next he =>
    obtain ⟨n, rfl⟩ := Int.eq_ofNat_of_zero_le he
    simp
  · next he =>
    obtain ⟨n, hn⟩ := Int.eq_ofNat_of_zero_le (a := -e) (by omega)
    obtain rfl : e = -(n : Int) := by omega
    simp [div_eq_mul_inv]

theorem quotient_inUnits (num den b : Nat) (e : Int) :
    quotient (inUnits num den b e) = quotient (num, den) / (b : ℚ) ^ e := by
  have hunit := quotient_scaled 1 b e
  rw [Nat.cast_one, one_mul] at hunit
  rw [← hunit]
  simp only [quotient, inUnits, Nat.cast_mul]
  rw [div_div_div_eq]

theorem inUnits_snd_pos (num : Nat) {den b : Nat} (hden : 0 < den) (hb : 0 < b) (e : Int) :
    0 < (inUnits num den b e).2 := Nat.mul_pos hden (scaled_fst_pos Nat.one_pos hb e)

theorem quotient_pos {num den : Nat} (hnum : 0 < num) (hden : 0 < den) :
    0 < quotient (num, den) := by
  unfold quotient
  positivity

/-! ## The binary logarithm -/

theorem log_quotient_bounds {num den : Nat} (hnum : 0 < num) (hden : 0 < den) :
    (2 : ℚ) ^ ((num.log2 : Int) - den.log2 - 1) < quotient (num, den) ∧
      quotient (num, den) < (2 : ℚ) ^ ((num.log2 : Int) - den.log2 + 1) := by
  have hd : (0 : ℚ) < den := by exact_mod_cast hden
  have hn₁ : ((2 : ℚ) ^ (num.log2 : Int)) ≤ num := by
    rw [zpow_natCast]
    exact_mod_cast Nat.log2_self_le hnum.ne'
  have hn₂ : (num : ℚ) < (2 : ℚ) ^ ((num.log2 : Int) + 1) := by
    have h : num < 2 ^ (num.log2 + 1) := Nat.lt_log2_self
    exact_mod_cast h
  have hd₁ : ((2 : ℚ) ^ (den.log2 : Int)) ≤ den := by
    rw [zpow_natCast]
    exact_mod_cast Nat.log2_self_le hden.ne'
  have hd₂ : (den : ℚ) < (2 : ℚ) ^ ((den.log2 : Int) + 1) := by
    have h : den < 2 ^ (den.log2 + 1) := Nat.lt_log2_self
    exact_mod_cast h
  constructor
  · rw [quotient, lt_div_iff₀ hd]
    calc (2 : ℚ) ^ ((num.log2 : Int) - den.log2 - 1) * den
        < (2 : ℚ) ^ ((num.log2 : Int) - den.log2 - 1) * (2 : ℚ) ^ ((den.log2 : Int) + 1) := by
          gcongr
      _ = (2 : ℚ) ^ (num.log2 : Int) := by
          rw [← zpow_add₀ two_ne_zero]
          congr 1
          omega
      _ ≤ num := hn₁
  · rw [quotient, div_lt_iff₀ hd]
    calc (num : ℚ) < (2 : ℚ) ^ ((num.log2 : Int) + 1) := hn₂
      _ = (2 : ℚ) ^ ((num.log2 : Int) - den.log2 + 1) * (2 : ℚ) ^ (den.log2 : Int) := by
          rw [← zpow_add₀ two_ne_zero]
          congr 1
          omega
      _ ≤ (2 : ℚ) ^ ((num.log2 : Int) - den.log2 + 1) * den := by
          gcongr

/-- An exponent whose powers enclose a rational is its logarithm. -/
theorem log_eq {v : ℚ} {e : Int} (hle : (2 : ℚ) ^ e ≤ v) (hlt : v < (2 : ℚ) ^ (e + 1)) :
    Int.log 2 v = e := by
  have hv : 0 < v := lt_of_lt_of_le (by positivity) hle
  have h₁ : e ≤ Int.log 2 v := (Int.zpow_le_iff_le_log one_lt_two hv).mp (by exact_mod_cast hle)
  have h₂ : Int.log 2 v < e + 1 := (Int.lt_zpow_iff_log_lt one_lt_two hv).mp (by exact_mod_cast hlt)
  omega

theorem log_mul_zpow {m : Nat} (hm : 0 < m) (e : Int) : Int.log 2 ((m : ℚ) * 2 ^ e) = e + m.log2 := by
  refine log_eq ?_ ?_
  · rw [zpow_add₀ two_ne_zero, mul_comm, zpow_natCast]
    gcongr
    exact_mod_cast Nat.log2_self_le hm.ne'
  · rw [add_assoc, zpow_add₀ two_ne_zero, mul_comm]
    gcongr
    have h2 : m < 2 ^ (m.log2 + 1) := Nat.lt_log2_self
    exact_mod_cast h2

/-- **`floorLog2` is the logarithm of the rational.** -/
theorem floorLog2_eq {num den : Nat} (hnum : 0 < num) (hden : 0 < den) :
    floorLog2 num den = Int.log 2 (quotient (num, den)) := by
  obtain ⟨hlow, hhigh⟩ := log_quotient_bounds hnum hden
  have hpos : ∀ e : Int, (0 : ℚ) < 2 ^ e := fun e => by positivity
  have hunits := quotient_inUnits num den 2 ((num.log2 : Int) - den.log2)
  have hd := inUnits_snd_pos num hden (b := 2) two_pos ((num.log2 : Int) - den.log2)
  unfold floorLog2
  cases hu : inUnits num den 2 ((num.log2 : Int) - den.log2) with
  | mk n d =>
    rw [hu] at hunits hd
    have hdq : (0 : ℚ) < d := by exact_mod_cast hd
    dsimp only
    rw [hu]
    dsimp only
    split
    · next hlt =>
      have hone : quotient (n, d) < 1 := by
        rw [quotient, div_lt_one hdq]
        exact_mod_cast hlt
      rw [hunits, Nat.cast_two, div_lt_one (hpos _)] at hone
      refine (log_eq (le_of_lt hlow) ?_).symm
      rwa [sub_add_cancel]
    · next hge =>
      have hone : 1 ≤ quotient (n, d) := by
        rw [quotient, one_le_div hdq]
        exact_mod_cast Nat.le_of_not_lt hge
      rw [hunits, Nat.cast_two, one_le_div (hpos _)] at hone
      exact (log_eq hone hhigh).symm

theorem lastBit_eq {num den : Nat} (hnum : 0 < num) (hden : 0 < den) :
    lastBit num den = max (-1074) (Int.log 2 (quotient (num, den)) - 52) := by
  rw [lastBit, floorLog2_eq hnum hden]

/-! ## Rounding to a whole number -/

theorem le_roundHalfEven (n d : Nat) : n / d ≤ roundHalfEven n d := by
  unfold roundHalfEven
  dsimp only
  split <;> omega

theorem roundHalfEven_le (n d : Nat) : roundHalfEven n d ≤ n / d + 1 := by
  unfold roundHalfEven
  dsimp only
  split <;> omega

theorem roundHalfEven_mul_self (n : Nat) {d : Nat} (hd : 0 < d) : roundHalfEven (n * d) d = n := by
  unfold roundHalfEven
  rw [Nat.mul_div_cancel n hd, Nat.mul_mod_left]
  simp only [Nat.mul_zero]
  rw [if_neg]
  simp only [Bool.or_eq_true, decide_eq_true_eq, Bool.and_eq_true, beq_iff_eq, not_or, not_and]
  omega

/-- Below one half everything rounds to zero. -/
theorem roundHalfEven_eq_zero {n d : Nat} (h : 2 * n < d) : roundHalfEven n d = 0 := by
  unfold roundHalfEven
  rw [Nat.div_eq_of_lt (by omega), Nat.mod_eq_of_lt (by omega), if_neg]
  simp only [Bool.or_eq_true, decide_eq_true_eq, Bool.and_eq_true, beq_iff_eq, not_or, not_and]
  omega

theorem roundHalfEven_mul_mul (n d : Nat) {k : Nat} (hk : 0 < k) :
    roundHalfEven (n * k) (d * k) = roundHalfEven n d := by
  have hlt : (d * k < 2 * (n % d * k)) ↔ d < 2 * (n % d) := by
    rw [← Nat.mul_assoc, Nat.mul_lt_mul_right hk]
  have heq : (2 * (n % d * k) = d * k) ↔ 2 * (n % d) = d := by
    rw [← Nat.mul_assoc, Nat.mul_left_inj hk.ne']
  unfold roundHalfEven
  dsimp only
  rw [Nat.mul_div_mul_right n d hk, Nat.mul_mod_mul_right]
  simp only [hlt, heq, beq_eq_decide]

/-- Rounding depends on the rational alone. -/
theorem roundHalfEven_congr {n d n' d' : Nat} (hd : 0 < d) (hd' : 0 < d')
    (h : quotient (n, d) = quotient (n', d')) : roundHalfEven n d = roundHalfEven n' d' := by
  have hdq : (d : ℚ) ≠ 0 := by exact_mod_cast hd.ne'
  have hdq' : (d' : ℚ) ≠ 0 := by exact_mod_cast hd'.ne'
  have hcross : n * d' = n' * d := by
    rw [quotient, quotient, div_eq_div_iff hdq hdq'] at h
    exact_mod_cast h
  rw [← roundHalfEven_mul_mul n d hd', hcross, ← roundHalfEven_mul_mul n' d' hd, Nat.mul_comm d d']

/-- Rounding to a whole number keeps the order. -/
theorem roundHalfEven_le_roundHalfEven {n n' d : Nat} (h : n ≤ n') :
    roundHalfEven n d ≤ roundHalfEven n' d := by
  have hdiv := Nat.div_le_div_right (c := d) h
  rcases Nat.eq_or_lt_of_le hdiv with heq | hlt
  · have hn := Nat.div_add_mod n d
    have hn' := Nat.div_add_mod n' d
    rw [← heq] at hn'
    have hmod : n % d ≤ n' % d := by omega
    unfold roundHalfEven
    dsimp only
    rw [heq]
    split
    · next hup =>
      rw [if_pos]
      simp only [Bool.or_eq_true, decide_eq_true_eq, Bool.and_eq_true, beq_iff_eq] at hup ⊢
      omega
    · split <;> omega
  · exact (roundHalfEven_le n d).trans (hlt.trans_le (le_roundHalfEven n' d))

theorem roundHalfEven_mono {n d n' d' : Nat} (hd : 0 < d) (hd' : 0 < d')
    (h : quotient (n, d) ≤ quotient (n', d')) : roundHalfEven n d ≤ roundHalfEven n' d' := by
  have hdq : (0 : ℚ) < d := by exact_mod_cast hd
  have hdq' : (0 : ℚ) < d' := by exact_mod_cast hd'
  have hcross : n * d' ≤ n' * d := by
    rw [quotient, quotient, div_le_div_iff₀ hdq hdq'] at h
    exact_mod_cast h
  rw [← roundHalfEven_mul_mul n d hd', ← roundHalfEven_mul_mul n' d' hd, Nat.mul_comm d' d]
  exact roundHalfEven_le_roundHalfEven hcross

/-! ## The nearest double -/

/-- The mantissa that a rational has after rounding. -/
def roundedMantissa (num den : Nat) : Nat :=
  roundHalfEven (inUnits num den 2 (lastBit num den)).1 (inUnits num den 2 (lastBit num den)).2

theorem nearestBits_eq {num den : Nat} (hnum : 0 < num) :
    nearestBits num den =
      min ((lastBit num den + 1074).toNat * binade + roundedMantissa num den) infinityBits := by
  rw [nearestBits, if_neg hnum.ne']
  rfl

theorem neg_1074_le_lastBit (num den : Nat) : -1074 ≤ lastBit num den := le_max_left ..

/-- The last bit is the least one that a double has, or the mantissa is full. -/
theorem roundedMantissa_bounds {num den : Nat} (hnum : 0 < num) (hden : 0 < den) :
    roundedMantissa num den ≤ 2 * binade ∧
      (lastBit num den = -1074 ∨ binade ≤ roundedMantissa num den) := by
  have hd := inUnits_snd_pos num hden (b := 2) two_pos (lastBit num den)
  have hunits := quotient_inUnits num den 2 (lastBit num den)
  have hv := quotient_pos hnum hden
  have hlow := Int.zpow_log_le_self one_lt_two hv
  have hhigh := Int.lt_zpow_succ_log_self one_lt_two (quotient (num, den))
  have hlast := lastBit_eq hnum hden
  unfold roundedMantissa
  cases hu : inUnits num den 2 (lastBit num den) with
  | mk n d =>
    rw [hu] at hd hunits
    have hdq : (0 : ℚ) < d := by exact_mod_cast hd
    have hpos : (0 : ℚ) < ((2 : Nat) : ℚ) ^ lastBit num den := by positivity
    constructor
    · -- rounding cannot go past a whole number that bounds the quotient
      have hlt : n < 2 * binade * d := by
        have hbound : quotient (n, d) < ((2 * binade : Nat) : ℚ) := by
          rw [hunits, div_lt_iff₀ hpos]
          refine lt_of_lt_of_le hhigh ?_
          have hpow : ((2 * binade : Nat) : ℚ) = ((2 : Nat) : ℚ) ^ (53 : Int) := by norm_num
          rw [hpow, ← zpow_add₀ (by norm_num)]
          refine zpow_le_zpow_right₀ (by norm_num) ?_
          omega
        rw [quotient, div_lt_iff₀ hdq] at hbound
        exact_mod_cast hbound
      have hdiv : n / d < 2 * binade := (Nat.div_lt_iff_lt_mul hd).mpr hlt
      have hround := roundHalfEven_le n d
      dsimp only
      omega
    · rcases eq_or_lt_of_le (neg_1074_le_lastBit num den) with hmin | hmin
      · exact Or.inl hmin.symm
      · right
        have hle : binade * d ≤ n := by
          have hbound : ((binade : Nat) : ℚ) ≤ quotient (n, d) := by
            rw [hunits, le_div_iff₀ hpos]
            refine le_trans ?_ hlow
            have hpow : ((binade : Nat) : ℚ) = ((2 : Nat) : ℚ) ^ (52 : Int) := by norm_num
            rw [hpow, ← zpow_add₀ (by norm_num)]
            refine zpow_le_zpow_right₀ (by norm_num) ?_
            omega
          rw [quotient, le_div_iff₀ hdq] at hbound
          exact_mod_cast hbound
        exact le_trans ((Nat.le_div_iff_mul_le hd).mpr hle) (le_roundHalfEven n d)

theorem pos_of_quotient_eq {num den num' den' : Nat} (hnum : 0 < num) (hden : 0 < den) (hden' : 0 < den')
    (h : quotient (num, den) = quotient (num', den')) : 0 < num' := by
  have hdq' : (0 : ℚ) < den' := by exact_mod_cast hden'
  have hv := quotient_pos hnum hden
  rw [h, quotient, div_pos_iff_of_pos_right hdq'] at hv
  exact_mod_cast hv

/-- Mantissa and exponent depend on the rational alone. -/
theorem roundedMantissa_congr {num den num' den' : Nat} (hnum : 0 < num) (hden : 0 < den)
    (hden' : 0 < den') (h : quotient (num, den) = quotient (num', den')) :
    lastBit num den = lastBit num' den' ∧ roundedMantissa num den = roundedMantissa num' den' := by
  have hnum' := pos_of_quotient_eq hnum hden hden' h
  have hlast : lastBit num den = lastBit num' den' := by
    rw [lastBit_eq hnum hden, lastBit_eq hnum' hden', h]
  refine ⟨hlast, ?_⟩
  unfold roundedMantissa
  refine roundHalfEven_congr (inUnits_snd_pos _ hden two_pos _)
    (inUnits_snd_pos _ hden' two_pos _) ?_
  rw [quotient_inUnits, quotient_inUnits, hlast, h]

/-- **The nearest double depends on the rational alone.** -/
theorem nearestBits_congr {num den num' den' : Nat} (hden : 0 < den) (hden' : 0 < den')
    (h : quotient (num, den) = quotient (num', den')) :
    nearestBits num den = nearestBits num' den' := by
  rcases Nat.eq_zero_or_pos num with rfl | hnum
  · have hzero : num' = 0 := by
      by_contra hne
      exact absurd (pos_of_quotient_eq (Nat.pos_of_ne_zero hne) hden' hden h.symm) (lt_irrefl 0)
    rw [hzero, nearestBits, nearestBits, if_pos rfl, if_pos rfl]
  · obtain ⟨hlast, hmantissa⟩ := roundedMantissa_congr hnum hden hden' h
    rw [nearestBits_eq hnum, nearestBits_eq (pos_of_quotient_eq hnum hden hden' h), hlast, hmantissa]

/-! ## The ends of the doubles -/

/-- From `2 ^ 1024` on no double is finite. -/
theorem nearestBits_of_huge {num den : Nat} (hden : 0 < den)
    (h : (2 : ℚ) ^ (1024 : Int) ≤ quotient (num, den)) : nearestBits num den = infinityBits := by
  have hnum : 0 < num := by
    by_contra hzero
    obtain rfl : num = 0 := by omega
    rw [quotient, Nat.cast_zero, zero_div] at h
    exact absurd h (not_le_of_gt (zpow_pos two_pos _))
  have hlog : 1024 ≤ Int.log 2 (quotient (num, den)) :=
    (Int.zpow_le_iff_le_log one_lt_two (quotient_pos hnum hden)).mp (by rwa [Nat.cast_two])
  have hlast := lastBit_eq hnum hden
  have hbounds := (roundedMantissa_bounds hnum hden).2
  rw [nearestBits_eq hnum, Nat.min_eq_right]
  have hexp : 2046 ≤ (lastBit num den + 1074).toNat := by omega
  have hfull : binade ≤ roundedMantissa num den := by omega
  have hbits : infinityBits = 2046 * binade + binade := rfl
  rw [hbits]
  exact Nat.add_le_add (Nat.mul_le_mul_right _ hexp) hfull

/-- Below half the least double everything rounds to zero. -/
theorem nearestBits_of_minute {num den : Nat} (hden : 0 < den)
    (h : quotient (num, den) < (2 : ℚ) ^ (-1075 : Int)) : nearestBits num den = 0 := by
  rcases Nat.eq_zero_or_pos num with rfl | hnum
  · rw [nearestBits, if_pos rfl]
  · have hlog : Int.log 2 (quotient (num, den)) < -1075 :=
      (Int.lt_zpow_iff_log_lt one_lt_two (quotient_pos hnum hden)).mp (by rwa [Nat.cast_two])
    -- in units of the least double the rational is below one half
    have hlast : lastBit num den = -1074 := by
      rw [lastBit_eq hnum hden]
      omega
    have hd := inUnits_snd_pos num hden (b := 2) two_pos (-1074)
    have hunits := quotient_inUnits num den 2 (-1074)
    have hmantissa : roundedMantissa num den = 0 := by
      unfold roundedMantissa
      rw [hlast]
      cases hu : inUnits num den 2 (-1074) with
      | mk n d =>
        rw [hu] at hd hunits
        have hdq : (0 : ℚ) < d := by exact_mod_cast hd
        refine roundHalfEven_eq_zero ?_
        have hhalf : quotient (n, d) < 1 / 2 := by
          rw [hunits, div_lt_iff₀ (zpow_pos two_pos _)]
          refine lt_of_lt_of_eq h ?_
          rw [Nat.cast_two, one_div, ← zpow_neg_one, ← zpow_add₀ two_ne_zero]
          rfl
        rw [quotient, div_lt_iff₀ hdq] at hhalf
        have hlt : (2 : ℚ) * n < d := by linarith
        exact_mod_cast hlt
    rw [nearestBits_eq hnum, hlast, hmantissa]
    rfl

end Telemetry.Binary64

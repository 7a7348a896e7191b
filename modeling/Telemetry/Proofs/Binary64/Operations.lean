import Telemetry.Proofs.Binary64.Nearest
import Telemetry.Proofs.Binary64.Zeros

/-!
# Sums, products and quotients of doubles

A sum, a product or a quotient of finite doubles is the exact one, rounded to the nearest double
(`value_add`, `value_mul`, `value_div`), as long as it is not too large for one.  Rounding keeps the order and
what is a double already, so these operations keep the order too, and what a double can hold is exact: whole
numbers of 53 bits (`value_ofInt`), for one.
-/

namespace Telemetry.Binary64

open Float.Model Float.Model.UnpackedFloat

/-! ## Unpacked numbers -/

section Unpacked

variable {u w : UnpackedFloat}

theorem nearest_zero : nearest 0 = 0 := (nearest_of_nonneg (le_refl 0)).trans nearestMagnitude_zero

theorem nearest_exact (h : Canonical u) : nearest (exact u) = exact u := by
  cases u with
  | finite s m e hm =>
    rw [exact_finite, cast_apply, mul_assoc, nearest_sign s (by positivity),
      nearestMagnitude_of_fits h.1 h.2.1]
  | _ => exact nearest_zero

theorem apply_decreaseExponent (s : Sign) (m : Nat) {e e' : Int} (h : e' ≤ e) :
    ((s.apply (decreaseExponent m e e').1 : Int) : ℚ) * 2 ^ e' = (s.apply m : Int) * 2 ^ e := by
  have hshift := apply_shiftLeft s m (e - e').toNat e
  rwa [Int.toNat_of_nonneg (Int.sub_nonneg_of_le h), sub_sub_cancel] at hshift

/-- **The model adds and then rounds.** -/
theorem add_nearest (hu : Canonical u) (hw : Canonical w) :
    Canonical (u.add .binary64 w) ∧ exact (u.add .binary64 w) = nearest (exact u + exact w) := by
  cases u with
  | zero s =>
    rw [exact_zero, zero_add, nearest_exact hw]
    cases w with
    | zero s' =>
      unfold UnpackedFloat.add
      dsimp only
      split <;> exact ⟨trivial, rfl⟩
    | finite s' m' e' hm' => exact ⟨hw, rfl⟩
    | _ => exact hw.elim
  | finite s m e hm =>
    cases w with
    | zero s' =>
      rw [exact_zero, add_zero, nearest_exact hu]
      exact ⟨hu, rfl⟩
    | finite s' m' e' hm' =>
      have hsum := normalize_nearest (s.apply (decreaseExponent m e (min e e')).1 +
        s'.apply (decreaseExponent m' e' (min e e')).1) (min e e') .positive
      rw [Int.cast_add, add_mul, apply_decreaseExponent s m (min_le_left e e'),
        apply_decreaseExponent s' m' (min_le_right e e')] at hsum
      exact hsum
    | _ => exact hw.elim
  | _ => exact hu.elim

theorem apply_mul (s s' : Sign) (i j : Int) : (s * s').apply (i * j) = s.apply i * s'.apply j := by
  cases s <;> cases s'
  · exact (Int.neg_mul_neg i j).symm
  · exact (Int.neg_mul i j).symm
  · exact (Int.mul_neg i j).symm
  · rfl

/-- **The model multiplies and then rounds.** -/
theorem mul_nearest (hu : Canonical u) (hw : Canonical w) :
    Canonical (u.mul .binary64 w) ∧ exact (u.mul .binary64 w) = nearest (exact u * exact w) := by
  cases u with
  | zero s =>
    rw [exact_zero, zero_mul, nearest_zero]
    cases w with
    | zero s' | finite s' m' e' hm' => exact ⟨trivial, rfl⟩
    | _ => exact hw.elim
  | finite s m e hm =>
    cases w with
    | zero s' =>
      rw [exact_zero, mul_zero, nearest_zero]
      exact ⟨trivial, rfl⟩
    | finite s' m' e' hm' =>
      have hpos := Nat.mul_pos hm hm'
      have hlong : 52 ≤ (m * m').log2 ∨ e + e' ≤ -1074 := by
        rw [Nat.le_log2 hpos.ne']
        rcases hu.2.2 with hfull | hleast
        · exact Or.inl (hfull.trans (Nat.le_mul_of_pos_right m hm'))
        · rcases hw.2.2 with hfull' | hleast'
          · exact Or.inl (hfull'.trans (Nat.le_mul_of_pos_left m' hm))
          · exact Or.inr (by omega)
      have hproduct := roundWithAccuracy_exact_nearest (s * s') hpos hlong
      rw [Nat.cast_mul, apply_mul, Int.cast_mul, zpow_add₀ two_ne_zero, mul_mul_mul_comm] at hproduct
      exact hproduct
    | _ => exact hw.elim
  | _ => exact hu.elim

theorem apply_div (s s' : Sign) : (s / s').apply 1 = s.apply 1 * s'.apply 1 := by
  cases s <;> cases s' <;> rfl

theorem apply_mul_apply (s : Sign) : s.apply 1 * s.apply 1 = 1 := by cases s <;> rfl

/-- A dividend that is shifted far enough has a quotient with enough bits. -/
theorem log2_quotient_ge {m m' n : Nat} (hm : 0 < m) (hm' : 0 < m') (h : 53 + m'.log2 ≤ n + m.log2) :
    52 ≤ ((m <<< n) / m').log2 := by
  have hle : 2 ^ 52 ≤ (m <<< n) / m' := by
    rw [Nat.le_div_iff_mul_le hm', Nat.shiftLeft_eq]
    calc 2 ^ 52 * m' ≤ 2 ^ 52 * 2 ^ (m'.log2 + 1) := Nat.mul_le_mul_left _ Nat.lt_log2_self.le
      _ = 2 ^ (53 + m'.log2) := by rw [← Nat.pow_add]; congr 1; omega
      _ ≤ 2 ^ (m.log2 + n) := Nat.pow_le_pow_right two_pos (by omega)
      _ = 2 ^ m.log2 * 2 ^ n := Nat.pow_add ..
      _ ≤ m * 2 ^ n := Nat.mul_le_mul_right _ (Nat.log2_self_le hm.ne')
  rwa [Nat.le_log2 (by omega)]

theorem exact_ne_zero (s : Sign) {m : Nat} (hm : 0 < m) (e : Int) : exact (.finite s m e hm) ≠ 0 := by
  have hsign : ((s.apply 1 : Int) : ℚ) ≠ 0 := by cases s <;> simp [Sign.apply]
  rw [exact_finite, cast_apply]
  exact mul_ne_zero (mul_ne_zero hsign (Nat.cast_ne_zero.mpr hm.ne')) (zpow_ne_zero e two_ne_zero)

theorem exact_div (s s' : Sign) {m m' n : Nat} {e e' t : Int} (hm : 0 < m) (hm' : 0 < m')
    (hshift : e - e' = t + n) :
    ((s / s').apply 1 : Int) * (quotient (m <<< n, m') * 2 ^ t) =
      exact (.finite s m e hm) / exact (.finite s' m' e' hm') := by
  have hsign : ((s'.apply 1 : Int) : ℚ) * (s'.apply 1 : Int) = 1 := by exact_mod_cast apply_mul_apply s'
  have hdividend : (quotient (m <<< n, m') * m' : ℚ) = m * 2 ^ (n : Int) := by
    rw [quotient, div_mul_cancel₀ _ (Nat.cast_ne_zero.mpr hm'.ne'), Nat.shiftLeft_eq, zpow_natCast]
    push_cast
    rfl
  have hexponent : (2 : ℚ) ^ e = 2 ^ (n : Int) * (2 ^ t * 2 ^ e') := by
    rw [← zpow_add₀ two_ne_zero, ← zpow_add₀ two_ne_zero]
    congr 1
    omega
  rw [eq_div_iff (exact_ne_zero s' hm' e'), exact_finite, exact_finite, cast_apply s m, cast_apply s' m',
    apply_div, Int.cast_mul, hexponent]
  linear_combination ((s.apply 1 : Int) : ℚ) * (2 ^ t * 2 ^ e') *
    ((s'.apply 1 : Int) * (s'.apply 1 : Int) * hdividend + m * 2 ^ (n : Int) * hsign)

/-- **The model divides and then rounds.** -/
theorem div_nearest (hu : Canonical u) (hw : Canonical w) (hne : exact w ≠ 0) :
    Canonical (u.div .binary64 w) ∧ exact (u.div .binary64 w) = nearest (exact u / exact w) := by
  cases w with
  | finite s' m' e' hm' =>
    cases u with
    | zero s =>
      rw [exact_zero, zero_div, nearest_zero]
      exact ⟨trivial, rfl⟩
    | finite s m e hm =>
      obtain ⟨t, ht⟩ : ∃ t, t = min (e - e') (Format.binary64.targetExponent
          (totalExponent m e - totalExponent m' e')) := ⟨_, rfl⟩
      obtain ⟨n, hn⟩ : ∃ n : Nat, e - e' = t + n := ⟨(e - e' - t).toNat, by omega⟩
      have hcore : divCore .binary64 m e m' e' =
          ((m <<< n) / m', t, accuracyOfFraction ((m <<< n) % m') m') := by
        have hshift : (e - e' - t).toNat = n := by omega
        unfold divCore
        dsimp only
        rw [← ht, hshift]
      have hpos : 0 < m <<< n := by
        rw [Nat.shiftLeft_eq]
        exact Nat.mul_pos hm (Nat.two_pow_pos n)
      have hlong : 52 ≤ ((m <<< n) / m').log2 ∨ t ≤ -1074 := by
        rw [targetExponent_eq, totalExponent, totalExponent] at ht
        by_cases hleast : t ≤ -1074
        · exact Or.inr hleast
        · exact Or.inl (log2_quotient_ge hm hm' (by omega))
      have hquotient := @roundWithAccuracy_nearest t (s / s') _ _ hpos hm' hlong
        (UnpackedFloat.div .binary64 (.finite s m e hm) (.finite s' m' e' hm')) (by
          unfold UnpackedFloat.div
          dsimp only
          rw [hcore])
      rwa [exact_div s s' hm hm' hn] at hquotient
    | _ => exact hu.elim
  | zero s' => exact absurd (exact_zero s') hne
  | _ => exact hw.elim

end Unpacked

/-! ## Packing -/

section Packing

variable {x y : Float} {u : UnpackedFloat}

theorem unpackSign_packComponents (s : Sign) (b : BitVec 11) (v : BitVec 52) :
    unpackSign (packComponents .binary64 s b v) = s.toBitVec := by
  change (s.toBitVec ++ b ++ v).extractLsb' 63 1 = s.toBitVec
  rw [BitVec.extractLsb'_append_eq_of_le (by decide), BitVec.extractLsb'_append_eq_of_le (by decide)]
  cases s <;> rfl

theorem ofBitVec_toBitVec (s : Sign) : Sign.ofBitVec s.toBitVec = s := by cases s <;> rfl

theorem unpack_subnormal (s : Sign) {m : Nat} (hm : 0 < m) (hlt : m < 2 ^ 52) :
    UnpackedFloat.unpack .binary64 (packComponents .binary64 s 0#11 (BitVec.ofNat 52 m)) =
      .finite s m (-1074) hm := by
  have hmantissa : (BitVec.ofNat 52 m).toNat = m := by rw [BitVec.toNat_ofNat, Nat.mod_eq_of_lt hlt]
  have hne : BitVec.ofNat 52 m ≠ 0#52 := fun h => hm.ne' (hmantissa.symm.trans (congrArg BitVec.toNat h))
  have hexponent : ¬ (0#11 = -1#11) := by decide
  unfold UnpackedFloat.unpack
  dsimp only
  rw [unpackExponent_packComponents, if_neg hexponent, if_pos rfl, dif_neg, UnpackedFloat.finite.injEq,
    unpackMantissa_packComponents, unpackSign_packComponents, ofBitVec_toBitVec]
  · exact ⟨rfl, hmantissa, rfl⟩
  · rw [unpackMantissa_packComponents]
    exact hne

theorem unpack_normal (s : Sign) {m n : Nat} (hm : 0 < m) (hfull : 2 ^ 52 ≤ m) (hlt : m < 2 ^ 53) (hn : 0 < n)
    (hn' : n < 2047) :
    UnpackedFloat.unpack .binary64 (packComponents .binary64 s (BitVec.ofNat 11 n) (BitVec.ofNat 52 m)) =
      .finite s m (n - 1075) hm := by
  have hexponent : (BitVec.ofNat 11 n).toNat = n := by
    rw [BitVec.toNat_ofNat, Nat.mod_eq_of_lt (hn'.trans (by decide))]
  have hinfinite : ¬ (BitVec.ofNat 11 n = -1#11) :=
    fun h => hn'.ne (hexponent.symm.trans (congrArg BitVec.toNat h))
  have hsubnormal : ¬ (BitVec.ofNat 11 n = 0#11) :=
    fun h => hn.ne' (hexponent.symm.trans (congrArg BitVec.toNat h))
  have hmantissa : (1#1 ++ BitVec.ofNat 52 m).toNat = m := by
    rw [toNat_implicit, BitVec.toNat_ofNat]
    unfold binade
    omega
  unfold UnpackedFloat.unpack
  dsimp only
  rw [unpackExponent_packComponents, if_neg hinfinite, if_neg hsubnormal, UnpackedFloat.finite.injEq,
    unpackMantissa_packComponents, unpackSign_packComponents, ofBitVec_toBitVec, hexponent]
  exact ⟨rfl, hmantissa, rfl⟩

/-- Packing loses nothing of a mantissa and an exponent of a double. -/
theorem unpack_packed {s : Sign} {m : Nat} {e : Int} {hm : 0 < m} (h : Canonical (.finite s m e hm))
    (hgreatest : e ≤ 971) : (packed (.finite s m e hm)).toModel.unpack = .finite s m e hm := by
  obtain ⟨hlt, hleast, hfull⟩ := h
  obtain ⟨n, hn⟩ : ∃ n : Nat, e = n - 1075 := ⟨(e + 1075).toNat, by omega⟩
  subst hn
  have hbiased : ((n : Int) - 1075 + 1075).toNat = n := by omega
  have hfits : ¬ 2 ^ Format.binary64.exponentBits ≤ n + 1 := by
    change ¬ 2048 ≤ n + 1
    omega
  change UnpackedFloat.unpack .binary64 (UnpackedFloat.pack .binary64 (.finite s m _ hm)) = _
  unfold UnpackedFloat.pack
  dsimp only
  rw [toNat_biased, hbiased, if_neg hfits]
  rcases Nat.lt_or_ge m (2 ^ 52) with hsmall | hlarge
  · have hlog : ¬ m.log2 + 1 = Format.binary64.mantissaBits := by
      have := (Nat.log2_lt hm.ne').mpr hsmall
      change ¬ m.log2 + 1 = 53
      omega
    rw [if_neg hlog, hfull.resolve_left (Nat.not_le.mpr hsmall)]
    exact unpack_subnormal s hm hsmall
  · have hlog : m.log2 + 1 = Format.binary64.mantissaBits :=
      congrArg (· + 1) ((Nat.log2_eq_iff hm.ne').mpr ⟨hlarge, hlt⟩)
    rw [if_pos hlog]
    exact unpack_normal s hm hlarge hlt (by omega) (by omega)

/-- The value of a double is what its unpacked form stands for. -/
theorem value_eq_exact (x : Float) : value x = exact x.toModel.unpack := by
  cases hx : finite? x with
  | none =>
    have hfinite : isFinite x = false := by rw [← finite?_isSome, hx, Option.isSome_none]
    rw [value, hx]
    rcases unpack_of_not_isFinite hfinite with h | ⟨s, h⟩ <;> rw [h] <;> rfl
  | some v =>
    rw [value, hx, unpack_eq hx]
    change v.value = _
    rcases Nat.eq_zero_or_pos v.mantissa with hzero | hpos
    · rw [Finite.unpacked_zero hzero, Finite.value_eq_zero hzero, exact_zero]
    · rw [Finite.unpacked_pos hpos, exact_finite, cast_apply, Finite.value, Finite.sign, Finite.magnitude]
      split <;> simp [Sign.apply]

theorem canonical_unpack (h : isFinite x = true) : Canonical x.toModel.unpack := by
  rw [← finite?_isSome] at h
  obtain ⟨v, hv⟩ := Option.isSome_iff_exists.mp h
  obtain ⟨⟨hlt, hfull, hleast, -⟩, -⟩ := finite?_eq_some hv
  rw [unpack_eq hv, Finite.unpacked]
  split
  · exact ⟨hlt, hleast, hfull⟩
  · trivial

theorem nearest_value (h : isFinite x = true) : nearest (value x) = value x := by
  rw [value_eq_exact, nearest_exact (canonical_unpack h)]

theorem abs_exact_finite (s : Sign) {m : Nat} {e : Int} (hm : 0 < m) :
    |exact (.finite s m e hm)| = m * 2 ^ e := by
  have hpower : |(2 : ℚ) ^ e| = 2 ^ e := abs_of_pos (zpow_pos two_pos e)
  rw [exact_finite, cast_apply, abs_mul, abs_mul, Nat.abs_cast, hpower]
  cases s <;> simp [Sign.apply]

/-- **Packing keeps what a number stands for** as long as it is not too large. -/
theorem value_packed (h : Canonical u) (hsize : |exact u| < 2 ^ 1024) :
    isFinite (packed u) = true ∧ value (packed u) = exact u := by
  cases u with
  | zero s =>
    refine ⟨(below_packed (k := 0) (u := .zero s) trivial (by decide) (by decide)).isFinite, ?_⟩
    rw [value_eq_exact, unpack_packed_zero]
  | finite s m e hm =>
    have hgreatest : e ≤ 971 := by
      by_contra hlarge
      have hfull : 2 ^ 52 ≤ m := h.2.2.resolve_right (by omega)
      refine hsize.not_ge ?_
      calc (2 : ℚ) ^ 1024 = (2 ^ 52 : Nat) * 2 ^ (972 : Int) := by
            rw [Nat.cast_pow, Nat.cast_two, ← zpow_natCast, ← zpow_natCast, ← zpow_add₀ two_ne_zero]
            rfl
        _ ≤ m * 2 ^ e := by
            gcongr
            · exact one_le_two
            · omega
        _ = _ := (abs_exact_finite s hm).symm
    refine ⟨(below_packed (k := 1024) ?_ (by decide) (by decide)).isFinite, ?_⟩
    · exact ⟨h.1, h.2.1, by omega⟩
    · rw [value_eq_exact, unpack_packed h hgreatest]
  | _ => exact h.elim

end Packing

/-! ## Operations -/

section Operations

variable {x y x' y' : Float}

/-- A power of two that a double can hold bounds what is rounded. -/
theorem abs_nearest_le {v : ℚ} {k : Nat} (hk : k ≤ 1023) (h : |v| ≤ 2 ^ k) : |nearest v| ≤ 2 ^ k := by
  have hpower : nearest (2 ^ k) = 2 ^ k := by
    have hfits := nearestMagnitude_of_fits (m := 1) (e := k) (by decide) (by omega)
    rw [nearest_of_nonneg (by positivity)]
    rwa [Nat.cast_one, one_mul, zpow_natCast] at hfits
  rw [abs_le] at h ⊢
  have hlow := nearest_mono h.1
  have hhigh := nearest_mono h.2
  rw [nearest_neg, hpower] at hlow
  rw [hpower] at hhigh
  exact ⟨hlow, hhigh⟩

theorem abs_nearest_lt {v : ℚ} (h : |v| ≤ 2 ^ 1023) : |nearest v| < 2 ^ 1024 :=
  (abs_nearest_le (le_refl 1023) h).trans_lt (pow_lt_pow_right₀ one_lt_two (by decide))

/-- **A sum of doubles is the nearest one to the exact sum.** -/
theorem value_add (hx : isFinite x = true) (hy : isFinite y = true) (h : |value x + value y| ≤ 2 ^ 1023) :
    isFinite (x + y) = true ∧ value (x + y) = nearest (value x + value y) := by
  obtain ⟨hcanonical, hexact⟩ := add_nearest (canonical_unpack hx) (canonical_unpack hy)
  rw [← value_eq_exact, ← value_eq_exact] at hexact
  rw [← hexact, add_eq]
  exact value_packed hcanonical (hexact ▸ abs_nearest_lt h)

/-- The least double above zero. -/
def least : ℚ := 2 ^ (-1074 : Int)

theorem least_pos : 0 < least := zpow_pos two_pos _

theorem nearest_least : nearest least = least := by
  have hfits := nearestMagnitude_of_fits (m := 1) (by decide) (le_refl (-1074))
  rw [Nat.cast_one, one_mul] at hfits
  exact (nearest_of_nonneg least_pos.le).trans hfits

/-- Every double is a multiple of the least one. -/
theorem exists_value_eq (x : Float) : ∃ n : Int, value x = n * least := by
  cases hx : isFinite x with
  | false =>
    rw [← finite?_isSome, Option.isSome_eq_false_iff, Option.isNone_iff_eq_none] at hx
    exact ⟨0, by rw [value, hx, Int.cast_zero, zero_mul]; rfl⟩
  | true =>
    have hcanonical := canonical_unpack hx
    rw [value_eq_exact]
    cases hu : x.toModel.unpack with
    | finite s m e hm =>
      rw [hu] at hcanonical
      obtain ⟨k, hk⟩ := Int.eq_ofNat_of_zero_le (Int.sub_nonneg_of_le hcanonical.2.1)
      have hexponent : (2 : ℚ) ^ e = 2 ^ k * least := by
        rw [least, ← zpow_natCast, ← zpow_add₀ two_ne_zero]
        congr 1
        omega
      refine ⟨s.apply m * 2 ^ k, ?_⟩
      rw [exact_finite, hexponent, ← mul_assoc]
      push_cast
      rfl
    | _ => exact ⟨0, by rw [Int.cast_zero, zero_mul]; rfl⟩

/-- **A sum of doubles has the sign of the exact sum**: it is never so small that it is rounded to zero. -/
theorem value_add_neg_iff (hx : isFinite x = true) (hy : isFinite y = true)
    (h : |value x + value y| ≤ 2 ^ 1023) : value (x + y) < 0 ↔ value x + value y < 0 := by
  rw [(value_add hx hy h).2]
  constructor
  · intro hneg
    by_contra hnonneg
    have hround := nearest_mono (not_lt.mp hnonneg)
    rw [nearest_zero] at hround
    exact hround.not_gt hneg
  · intro hneg
    obtain ⟨n, hn⟩ := exists_value_eq x
    obtain ⟨m, hm⟩ := exists_value_eq y
    rw [hn, hm, ← add_mul, ← Int.cast_add] at hneg ⊢
    have hcount : n + m ≤ -1 := by
      have hlt : ((n + m : Int) : ℚ) < 0 := neg_of_mul_neg_left hneg least_pos.le
      exact Int.le_sub_one_of_lt (by exact_mod_cast hlt)
    have hle : ((n + m : Int) : ℚ) * least ≤ -least := by
      rw [← neg_one_mul]
      exact mul_le_mul_of_nonneg_right (by exact_mod_cast hcount) least_pos.le
    calc nearest ((n + m : Int) * least) ≤ nearest (-least) := nearest_mono hle
      _ = -least := by rw [nearest_neg, nearest_least]
      _ < 0 := neg_lt_zero.mpr least_pos

/-- **A product of doubles is the nearest one to the exact product.** -/
theorem value_mul (hx : isFinite x = true) (hy : isFinite y = true) (h : |value x * value y| ≤ 2 ^ 1023) :
    isFinite (x * y) = true ∧ value (x * y) = nearest (value x * value y) := by
  obtain ⟨hcanonical, hexact⟩ := mul_nearest (canonical_unpack hx) (canonical_unpack hy)
  rw [← value_eq_exact, ← value_eq_exact] at hexact
  rw [← hexact, mul_eq]
  exact value_packed hcanonical (hexact ▸ abs_nearest_lt h)

/-- **A quotient of doubles is the nearest one to the exact quotient.** -/
theorem value_div (hx : isFinite x = true) (hy : isFinite y = true) (hne : value y ≠ 0)
    (h : |value x / value y| ≤ 2 ^ 1023) :
    isFinite (x / y) = true ∧ value (x / y) = nearest (value x / value y) := by
  rw [value_eq_exact y] at hne
  obtain ⟨hcanonical, hexact⟩ := div_nearest (canonical_unpack hx) (canonical_unpack hy) hne
  rw [← value_eq_exact, ← value_eq_exact] at hexact
  have hquotient : x / y = packed (x.toModel.unpack.div .binary64 y.toModel.unpack) := rfl
  rw [← hexact, hquotient]
  exact value_packed hcanonical (hexact ▸ abs_nearest_lt h)

/-! ## Whole numbers -/

theorem nearest_intCast {i : Int} (h : i.natAbs < 2 ^ 53) : nearest i = i := by
  have hmagnitude := nearestMagnitude_of_fits (e := 0) h (by decide)
  rw [zpow_zero, mul_one] at hmagnitude
  rcases Int.natAbs_eq i with hi | hi
  · rw [hi, Int.cast_natCast, nearest_of_nonneg (by positivity), hmagnitude]
  · rw [hi, Int.cast_neg, Int.cast_natCast, nearest_neg, nearest_of_nonneg (by positivity), hmagnitude]

/-- A whole number of 53 bits, as conversions from words round it. -/
theorem value_normalize {n : Nat} (h : n < 2 ^ 53) :
    isFinite (packed (UnpackedFloat.normalize .binary64 n 0 .positive)) = true ∧
      value (packed (UnpackedFloat.normalize .binary64 n 0 .positive)) = n := by
  have hsize : |(n : ℚ)| < 2 ^ 1024 := by
    have hlt : (n : ℚ) < 2 ^ 53 := by exact_mod_cast h
    rw [Nat.abs_cast]
    exact hlt.trans (pow_lt_pow_right₀ one_lt_two (by decide))
  have hnearest : nearest ((n : Int) : ℚ) = (n : Int) := nearest_intCast h
  obtain ⟨hcanonical, hexact⟩ := normalize_nearest n 0 .positive
  rw [zpow_zero, mul_one, hnearest, Int.cast_natCast] at hexact
  rw [← hexact] at hsize ⊢
  exact value_packed hcanonical hsize

theorem value_ofUInt32 (n : UInt32) : isFinite n.toFloat = true ∧ value n.toFloat = n.toNat :=
  value_normalize (n.toNat_lt.trans (by decide))

theorem value_ofNat {n : Nat} (h : n < 2 ^ 53) :
    isFinite (Float.ofNat n) = true ∧ value (Float.ofNat n) = n := by
  have hsize : |((n : Int) : ℚ)| ≤ 2 ^ 1023 := by
    have hlt : (n : ℚ) ≤ 2 ^ 53 := by exact_mod_cast h.le
    rw [Int.cast_natCast, Nat.abs_cast]
    exact hlt.trans (pow_le_pow_right₀ one_le_two (by decide))
  have hnearest : nearest ((n : Int) : ℚ) = (n : Int) := nearest_intCast h
  have hword : isFinite n.toUInt64.toFloat = true ∧ value n.toUInt64.toFloat = n := by
    have hmod : (UInt64.ofNat n).toNat = n := by
      rw [UInt64.toNat_ofNat', Nat.mod_eq_of_lt (h.trans (by decide))]
    have hfloat : n.toUInt64.toFloat = packed (UnpackedFloat.normalize .binary64 n 0 .positive) := by
      change packed (UnpackedFloat.normalize .binary64 (UInt64.ofNat n).toNat 0 .positive) = _
      rw [hmod]
    rw [hfloat]
    exact value_normalize h
  have hone : finite? (Float.ofBits 4607182418800017408) = some ⟨false, 2 ^ 52, -52⟩ := by decide +kernel
  have honeFinite : isFinite (Float.ofBits 4607182418800017408) = true := by
    rw [← finite?_isSome, hone]
    rfl
  have honeValue : value (Float.ofBits 4607182418800017408) = 1 := by
    rw [value, hone]
    change (((2 ^ 52 : Nat) : ℚ)) * 2 ^ (-52 : Int) = 1
    norm_num
  have hofNat : Float.ofNat n = n.toUInt64.toFloat * Float.ofBits 4607182418800017408 := by
    change Float.ofScientific n false 0 = _
    rw [Float.ofScientific, dif_pos ⟨h, by decide⟩]
    rfl
  have hproduct : value n.toUInt64.toFloat * value (Float.ofBits 4607182418800017408) = (n : Int) := by
    rw [hword.2, honeValue, mul_one, Int.cast_natCast]
  rw [hofNat]
  have hmul := value_mul hword.1 honeFinite (hproduct ▸ hsize)
  rwa [hproduct, hnearest, Int.cast_natCast] at hmul

theorem abs_value_lt (h : isFinite x = true) : |value x| < 2 ^ 1024 := by
  rw [← finite?_isSome] at h
  obtain ⟨v, hv⟩ := Option.isSome_iff_exists.mp h
  obtain ⟨⟨hlt, -, -, hgreatest⟩, -⟩ := finite?_eq_some hv
  have hvalue : |value x| = v.magnitude := by
    rw [value, hv]
    change |v.value| = _
    unfold Finite.value
    split
    · rw [abs_neg, abs_of_nonneg v.magnitude_nonneg]
    · rw [abs_of_nonneg v.magnitude_nonneg]
  rw [hvalue]
  have hpower : (2 : ℚ) ^ v.exponent ≤ 2 ^ (971 : Int) := zpow_le_zpow_right₀ one_le_two hgreatest
  calc v.magnitude ≤ v.mantissa * 2 ^ (971 : Int) := mul_le_mul_of_nonneg_left hpower (Nat.cast_nonneg _)
    _ < (2 * binade : Nat) * 2 ^ (971 : Int) := by gcongr
    _ = 2 ^ 1024 := by
        have hbinade : ((2 * binade : Nat) : ℚ) = 2 ^ (53 : Int) := by norm_num
        rw [hbinade, ← zpow_add₀ two_ne_zero, ← zpow_natCast]
        rfl

theorem exact_neg (u : UnpackedFloat) : exact u.neg = -exact u := by
  cases u with
  | finite s m e hm =>
    change (((-s).apply m : Int) : ℚ) * 2 ^ e = -(((s.apply m : Int) : ℚ) * 2 ^ e)
    have happly : (-s).apply m = -s.apply m := by
      cases s
      · exact (Int.neg_neg _).symm
      · rfl
    rw [happly, Int.cast_neg, neg_mul]
  | _ => exact (neg_zero (G := ℚ)).symm

theorem value_neg (h : isFinite x = true) : isFinite x.neg = true ∧ value x.neg = -value x := by
  have hcanonical : Canonical x.toModel.unpack.neg := by
    have hunpack := canonical_unpack h
    cases hu : x.toModel.unpack with
    | zero s => trivial
    | finite s m e hm =>
      rw [hu] at hunpack
      exact hunpack
    | _ =>
      rw [hu] at hunpack
      exact hunpack.elim
  have hexact : exact x.toModel.unpack.neg = -value x := by rw [exact_neg, value_eq_exact]
  rw [← hexact]
  exact value_packed hcanonical (by rw [hexact, abs_neg]; exact abs_value_lt h)

/-- **Whole numbers of 53 bits are exact.** -/
theorem value_ofInt {i : Int} (h : i.natAbs < 2 ^ 53) :
    isFinite (Float.ofInt i) = true ∧ value (Float.ofInt i) = i := by
  cases i with
  | ofNat n => exact value_ofNat h
  | negSucc n =>
    have hnat := value_ofNat (n := n + 1) h
    have hneg := value_neg hnat.1
    rw [hnat.2, Nat.cast_add_one] at hneg
    refine ⟨hneg.1, hneg.2.trans ?_⟩
    rw [Int.cast_negSucc, Nat.cast_add_one]

theorem value_zero : isFinite 0 = true ∧ value 0 = 0 := by
  have hzero : isFinite (0 : Float) = true ∧ value (0 : Float) = (0 : Nat) := value_ofNat (by decide)
  rwa [Nat.cast_zero] at hzero

theorem value_one : isFinite 1 = true ∧ value 1 = 1 := by
  have hone : isFinite (1 : Float) = true ∧ value (1 : Float) = (1 : Nat) := value_ofNat (by decide)
  rwa [Nat.cast_one] at hone

/-! ## Beyond the finite doubles -/

variable {low high : Float}

theorem value_of_not_isFinite (h : isFinite x = false) : value x = 0 := by
  rw [value_eq_exact]
  obtain h | ⟨s, h⟩ := unpack_of_not_isFinite h <;> rw [h] <;> rfl

theorem not_lt_notANumber (h : y.toModel.unpack = .notANumber) : ¬x < y := by
  rw [lt_iff_compare, Float.Model.compare, h]
  cases x.toModel.unpack <;> simp [UnpackedFloat.compare]

theorem lt_infinity (hx : isFinite x = true) (h : y.toModel.unpack = .infinity .positive) : x < y := by
  have hcanonical := canonical_unpack hx
  rw [lt_iff_compare, Float.Model.compare, h]
  generalize x.toModel.unpack = u at hcanonical ⊢
  cases u with
  | zero s => rfl
  | finite s m e hm => cases s <;> rfl
  | _ => exact hcanonical.elim

theorem infinity_lt (hy : isFinite y = true) (h : x.toModel.unpack = .infinity .negative) : x < y := by
  have hcanonical := canonical_unpack hy
  rw [lt_iff_compare, Float.Model.compare, h]
  generalize y.toModel.unpack = u at hcanonical ⊢
  cases u with
  | zero s => rfl
  | finite s m e hm => cases s <;> rfl
  | _ => exact hcanonical.elim

/-- What is not outside of finite bounds is compared as its value is, be it no number at all. -/
theorem lt_iff_of_between (hlow : isFinite low = true) (hhigh : isFinite high = true)
    (hy : ¬y < low) (hy' : ¬high < y) (hx : isFinite x = true) (hx' : 0 ≤ value x) :
    x < y ↔ value x < value y := by
  cases hfinite : isFinite y with
  | true => exact lt_iff hx hfinite
  | false =>
    rw [value_of_not_isFinite hfinite]
    refine iff_of_false ?_ (not_lt.mpr hx')
    obtain h | ⟨s, h⟩ := unpack_of_not_isFinite hfinite
    · exact not_lt_notANumber h
    · cases s with
      | positive => exact absurd (lt_infinity hhigh h) hy'
      | negative => exact absurd (infinity_lt hlow h) hy

end Operations

end Telemetry.Binary64

import Telemetry.Proofs.Binary64.Finite

/-!
# The order of doubles

The logical model of doubles unpacks a finite double into the mantissa and the exponent that `finite?`
gives it (`unpack_eq`) and compares those.  A greater exponent comes with a full mantissa, so comparing
them is comparing the exact values (`lt_iff`, `beq_iff`).
-/

namespace Telemetry.Binary64

open Float.Model Float.Model.UnpackedFloat

/-! ## The logical model -/

theorem toNat_unpackMantissa (x : Float) :
    (@unpackMantissa .binary64 x.toBits.toBitVec).toNat = magnitudeBits x % binade := by
  have hlt : x.toBits.toNat < 2 * signWeight := x.toBits.toNat_lt
  rw [unpackMantissa_def, BitVec.extractLsb'_toNat, Nat.shiftRight_zero, UInt64.toNat_toBitVec]
  simp only [magnitudeBits, signWeight, binade] at hlt ⊢
  omega

theorem toNat_unpackExponent (x : Float) :
    (@unpackExponent .binary64 x.toBits.toBitVec).toNat = magnitudeBits x / binade := by
  have hlt : x.toBits.toNat < 2 * signWeight := x.toBits.toNat_lt
  rw [unpackExponent_def, BitVec.extractLsb'_toNat, Nat.shiftRight_eq_div_pow,
    UInt64.toNat_toBitVec]
  simp only [magnitudeBits, signWeight, binade] at hlt ⊢
  omega

theorem unpackSign_eq (x : Float) :
    Sign.ofBitVec (@unpackSign .binary64 x.toBits.toBitVec) =
      if isNegative x then .negative else .positive := by
  have hlt : x.toBits.toNat < 2 * signWeight := x.toBits.toNat_lt
  have hsign : (@unpackSign .binary64 x.toBits.toBitVec) = 0#1 ↔ isNegative x = false := by
    rw [← BitVec.toNat_inj, unpackSign_def, BitVec.extractLsb'_toNat, Nat.shiftRight_eq_div_pow,
      UInt64.toNat_toBitVec]
    simp only [isNegative, signWeight, decide_eq_false_iff_not] at hlt ⊢
    change x.toBits.toNat / 2 ^ 63 % 2 = 0 ↔ _
    omega
  unfold Sign.ofBitVec
  cases hx : isNegative x <;> simp [hsign, hx]

theorem toNat_implicit (m : BitVec 52) : (1#1 ++ m).toNat = binade + m.toNat := by
  rw [BitVec.toNat_append, ← Nat.shiftLeft_add_eq_or_of_lt m.isLt]
  rfl

namespace Finite

/-- The sign of a finite double as the logical model of doubles has it. -/
def sign (v : Finite) : Sign := if v.negative then .negative else .positive

/-- A finite double as the logical model of doubles has it, where zero is apart. -/
def unpacked (v : Finite) : UnpackedFloat :=
  if h : 0 < v.mantissa then .finite v.sign v.mantissa v.exponent h else .zero v.sign

end Finite

/-- **The logical model of doubles unpacks a finite double as `finite?` does.** -/
theorem unpack_eq {x : Float} {v : Finite} (h : finite? x = some v) :
    x.toModel.unpack = v.unpacked := by
  have hm := toNat_unpackMantissa x
  have he := toNat_unpackExponent x
  unfold finite? at h
  dsimp only at h
  split at h
  · cases h
  · next hinf =>
    change UnpackedFloat.unpack Format.binary64 x.toBits.toBitVec = _
    unfold UnpackedFloat.unpack Finite.unpacked
    dsimp only
    rw [if_neg, unpackSign_eq]
    · split at h
      · next hzero =>
        obtain rfl := Option.some.inj h
        rw [if_pos]
        · by_cases hmantissa : magnitudeBits x % binade = 0
          · rw [dif_pos, dif_neg (Nat.not_lt.mpr (Nat.le_of_eq hmantissa))]
            · rfl
            · rw [← BitVec.toNat_inj, hm, hmantissa]
              rfl
          · rw [dif_neg, dif_pos (Nat.pos_of_ne_zero hmantissa), UnpackedFloat.finite.injEq]
            · refine ⟨rfl, hm, ?_⟩
              rw [he, hzero]
              rfl
            · rwa [← BitVec.toNat_inj, hm]
        · rw [← BitVec.toNat_inj, he, hzero]
          rfl
      · next hzero =>
        obtain rfl := Option.some.inj h
        rw [if_neg]
        · rw [dif_pos (Nat.add_pos_left (by decide) _), UnpackedFloat.finite.injEq, he]
          refine ⟨rfl, ?_, rfl⟩
          rw [toNat_implicit, hm]
        · rwa [← BitVec.toNat_inj, he]
    · rw [← BitVec.toNat_inj, he]
      change ¬ magnitudeBits x / binade = 2047
      simp only [infinityBits, binade] at hinf ⊢
      omega

namespace Finite

/-! ## Values -/

/-- The exact value. -/
def value (v : Finite) : ℚ := if v.negative then -v.magnitude else v.magnitude

variable {v w : Finite}

theorem magnitude_pos (h : 0 < v.mantissa) : 0 < v.magnitude := by
  unfold magnitude
  positivity

theorem value_eq_zero (h : v.mantissa = 0) : v.value = 0 := by
  simp [value, magnitude, h]

/-- The finite doubles of one exponent are below those of the next. -/
theorem magnitude_lt_of_exponent (hv : v.WF) (hw : w.WF) (h : v.exponent < w.exponent) :
    v.magnitude < w.magnitude := by
  have hfull : binade ≤ w.mantissa := by
    have hleast := hv.least
    exact hw.full.resolve_right (by omega)
  calc v.magnitude < (2 * binade : Nat) * (2 : ℚ) ^ v.exponent := by
        unfold magnitude
        gcongr
        exact hv.lt
    _ = binade * (2 : ℚ) ^ (v.exponent + 1) := by
        rw [zpow_add₀ two_ne_zero, zpow_one]
        push_cast
        ring
    _ ≤ w.magnitude := by
        unfold magnitude
        gcongr
        · exact one_le_two
        · exact h

theorem cmp_magnitude (hv : v.WF) (hw : w.WF) :
    cmp v.magnitude w.magnitude =
      (compare v.exponent w.exponent).then (compare v.mantissa w.mantissa) := by
  rcases lt_trichotomy v.exponent w.exponent with h | h | h
  · rw [(cmp_eq_lt_iff _ _).mpr (magnitude_lt_of_exponent hv hw h), compare_lt_iff_lt.mpr h]
    rfl
  · have hpow : (0 : ℚ) < 2 ^ w.exponent := zpow_pos two_pos _
    rw [magnitude, magnitude, h, compare_eq_iff_eq.mpr rfl, cmp_mul_pos_right hpow]
    exact ((Nat.strictMono_cast (α := ℚ)).cmp_map_eq _ _).trans (cmp_eq_compare _ _)
  · rw [(cmp_eq_gt_iff _ _).mpr (magnitude_lt_of_exponent hw hv h), compare_gt_iff_gt.mpr h]
    rfl

theorem cmp_neg (a b : ℚ) : cmp (-a) (-b) = (cmp a b).swap := by
  rw [cmp_swap]
  simp [cmp, cmpUsing]

theorem unpacked_zero (h : v.mantissa = 0) : v.unpacked = .zero v.sign := by
  rw [unpacked, dif_neg (by omega)]

theorem unpacked_pos (h : 0 < v.mantissa) :
    v.unpacked = .finite v.sign v.mantissa v.exponent h := by
  rw [unpacked, dif_pos h]

/-- The logical model compares finite doubles by their exact values. -/
theorem compare_unpacked (hv : v.WF) (hw : w.WF) :
    v.unpacked.compare w.unpacked = some (cmp v.value w.value) := by
  -- the logical model has constructors of its own for zeros, and they are equal whatever their signs
  rcases Nat.eq_zero_or_pos v.mantissa with hv₀ | hv₀ <;>
    rcases Nat.eq_zero_or_pos w.mantissa with hw₀ | hw₀
  · rw [value_eq_zero hv₀, value_eq_zero hw₀, unpacked_zero hv₀, unpacked_zero hw₀, cmp_self_eq_eq]
    rfl
  · have hpos := magnitude_pos hw₀
    rw [value_eq_zero hv₀, unpacked_zero hv₀, unpacked_pos hw₀, value, sign, sign]
    cases w.negative
    · rw [if_neg Bool.false_ne_true, if_neg Bool.false_ne_true, (cmp_eq_lt_iff _ _).mpr hpos]
      rfl
    · rw [if_pos rfl, if_pos rfl, (cmp_eq_gt_iff _ _).mpr (neg_lt_zero.mpr hpos)]
      rfl
  · have hpos := magnitude_pos hv₀
    rw [value_eq_zero hw₀, unpacked_zero hw₀, unpacked_pos hv₀, value, sign, sign]
    cases v.negative
    · rw [if_neg Bool.false_ne_true, if_neg Bool.false_ne_true, (cmp_eq_gt_iff _ _).mpr hpos]
      rfl
    · rw [if_pos rfl, if_pos rfl, (cmp_eq_lt_iff _ _).mpr (neg_lt_zero.mpr hpos)]
      rfl
  · have hvpos := magnitude_pos hv₀
    have hwpos := magnitude_pos hw₀
    rw [unpacked_pos hv₀, unpacked_pos hw₀, value, value, sign, sign]
    cases v.negative <;> cases w.negative <;> simp only [Bool.false_eq_true, if_true, if_false]
    · rw [cmp_magnitude hv hw]
      rfl
    · rw [(cmp_eq_gt_iff _ _).mpr ((neg_lt_zero.mpr hwpos).trans hvpos)]
      rfl
    · rw [(cmp_eq_lt_iff _ _).mpr ((neg_lt_zero.mpr hvpos).trans hwpos)]
      rfl
    · rw [cmp_neg, cmp_magnitude hv hw]
      rfl

end Finite

/-! ## Comparing doubles -/

/-- The exact value of a double, where those that have none count as zero. -/
def value (x : Float) : ℚ := (finite? x).elim 0 Finite.value

variable {x y : Float}

theorem compare_eq (hx : isFinite x = true) (hy : isFinite y = true) :
    x.toModel.compare y.toModel = some (cmp (value x) (value y)) := by
  rw [← finite?_isSome] at hx hy
  obtain ⟨v, hv⟩ := Option.isSome_iff_exists.mp hx
  obtain ⟨w, hw⟩ := Option.isSome_iff_exists.mp hy
  have hcompare := Finite.compare_unpacked (finite?_eq_some hv).1 (finite?_eq_some hw).1
  rw [value, value, hv, hw, Float.Model.compare, unpack_eq hv, unpack_eq hw]
  exact hcompare

theorem lt_iff_compare : x < y ↔ x.toModel.compare y.toModel = some .lt := by
  change decide (x.toModel < y.toModel) = true ↔ _
  rw [decide_eq_true_iff]
  exact beq_iff_eq

/-- **Finite doubles are ordered as their exact values are.** -/
theorem lt_iff (hx : isFinite x = true) (hy : isFinite y = true) : x < y ↔ value x < value y := by
  rw [lt_iff_compare, compare_eq hx hy, Option.some_inj, cmp_eq_lt_iff]

theorem le_iff (hx : isFinite x = true) (hy : isFinite y = true) : x ≤ y ↔ value x ≤ value y := by
  have hle : x ≤ y ↔ (x.toModel.compare y.toModel).any (·.isLE) = true := by
    change decide (x.toModel ≤ y.toModel) = true ↔ _
    rw [decide_eq_true_iff]
    rfl
  rw [hle, compare_eq hx hy, Option.any_some, Ordering.isLE_iff_ne_gt, not_congr (cmp_eq_gt_iff _ _), not_lt]

/-- Finite doubles are equal as numbers, where zeros are, if their exact values are. -/
theorem beq_iff (hx : isFinite x = true) (hy : isFinite y = true) :
    (x == y) = true ↔ value x = value y := by
  have hbeq : (x == y) = true ↔ x.toModel.compare y.toModel = some .eq := by
    change (x.toModel.compare y.toModel == some .eq) = true ↔ _
    exact beq_iff_eq
  rw [hbeq, compare_eq hx hy, Option.some_inj, cmp_eq_eq_iff]

/-! ## Doubles from bits -/

theorem toBits_ofBits {n : UInt64} (h : n.toNat % signWeight < infinityBits) :
    (Float.ofBits n).toBits = n := by
  have hlt : n.toNat < 2 * signWeight := n.toNat_lt
  have hnan : @isNaNBits .binary64 n.toBitVec = false := by
    rw [isNaNBits, decide_eq_false_iff_not, ← BitVec.toNat_inj, unpackExponent_def,
      BitVec.extractLsb'_toNat, Nat.shiftRight_eq_div_pow, UInt64.toNat_toBitVec]
    rintro ⟨hexponent, -⟩
    change n.toNat / 2 ^ 52 % 2 ^ 11 = 2047 at hexponent
    simp only [signWeight, infinityBits] at hlt h
    omega
  change UInt64.ofBitVec (UnpackedFloat.pack .binary64 (UnpackedFloat.unpack .binary64 n.toBitVec)) = n
  rw [pack_unpack, hnan]
  rfl

theorem isFinite_ofSignBits {negative : Bool} {bits : Nat} (h : bits < infinityBits) :
    isFinite (ofSignBits negative bits) = true := by
  have hword : (UInt64.ofNat (if negative then signWeight + bits else bits)).toNat % signWeight =
      bits := by
    rw [UInt64.toNat_ofNat']
    simp only [infinityBits, signWeight] at h ⊢
    split <;> omega
  rw [isFinite, magnitudeBits, ofSignBits, toBits_ofBits, hword]
  · exact decide_eq_true h
  · rwa [hword]

/-! ## Words from doubles -/

/-- **A double in the range of the words is converted into the word below it.** -/
theorem toNat_toWord (hfinite : isFinite x = true) (hnonneg : 0 ≤ value x) (hlt : value x < 2 ^ 64) :
    (toWord x).toNat = ⌊value x⌋₊ := by
  rw [← finite?_isSome] at hfinite
  obtain ⟨v, hv⟩ := Option.isSome_iff_exists.mp hfinite
  rw [value, hv, Option.elim_some, Finite.value] at hnonneg hlt ⊢
  rw [toWord, hv]
  dsimp only
  rw [v.truncate_eq_floor]
  cases hneg : v.negative with
  | true =>
    -- only a zero is negative here
    rw [hneg, if_pos rfl] at hnonneg
    have hzero : v.magnitude = 0 := le_antisymm (neg_nonneg.mp hnonneg) v.magnitude_nonneg
    rw [hzero, if_pos rfl, if_pos rfl, neg_zero, Nat.floor_zero]
    rfl
  | false =>
    rw [hneg, if_neg Bool.false_ne_true] at hlt
    have hword : ⌊v.magnitude⌋₊ < UInt64.size := by
      rw [Nat.floor_lt v.magnitude_nonneg]
      exact hlt.trans_eq (by norm_num [UInt64.size])
    rw [if_neg Bool.false_ne_true, if_neg Bool.false_ne_true, if_pos hword, UInt64.toNat_ofNat',
      Nat.mod_eq_of_lt hword]

/-- No other double is converted into the whole number below it. -/
theorem toNat_toWord_eq_floor_iff (hfinite : isFinite x = true) :
    ((toWord x).toNat : Int) = ⌊value x⌋ ↔ 0 ≤ value x ∧ value x < 2 ^ 64 := by
  constructor
  · intro h
    have hword := (toWord x).toNat_lt
    have hnonneg : 0 ≤ ⌊value x⌋ := by omega
    have hlt : ⌊value x⌋ < 2 ^ 64 := by omega
    exact ⟨Int.floor_nonneg.mp hnonneg, by exact_mod_cast Int.floor_lt.mp hlt⟩
  · rintro ⟨hnonneg, hlt⟩
    rw [toNat_toWord hfinite hnonneg hlt, Int.natCast_floor_eq_floor hnonneg]

end Telemetry.Binary64

import Telemetry.Proofs.Binary64.Order

/-!
# How large a double can be

Rounding to a double makes no number more than twice as large, so a sum of numbers whose size is
known is known in size (`Within.add`), and what is packed is finite if its size is within that of
the format (`below_packed`, `Below.isFinite`).  From the other side, rounding makes no number zero
whose last bit is one of the format (`round_ne_zero`).
-/

namespace Telemetry.Binary64

open Float.Model Float.Model.UnpackedFloat

/-! ## Rounding -/

section Rounding

variable {m : Nat} {e k : Int}

theorem targetExponent_eq (t : Int) : Format.binary64.targetExponent t = max (t - 53) (-1074) := rfl

theorem mantissa_shiftRight (k : Nat) (em : ExtendedMantissa) :
    (em >>> k).mantissa = em.mantissa / 2 ^ k := by
  induction k with
  | zero => exact (Nat.div_one _).symm
  | succ k ih =>
    change (em >>> k).mantissa / 2 = _
    rw [ih, Nat.div_div_eq_div_mul, Nat.pow_succ]

theorem mantissa_ofMantissaAndAccuracy (m : Nat) (acc : Accuracy) :
    (ExtendedMantissa.ofMantissaAndAccuracy m acc).mantissa = m := by
  rcases acc with _ | (_ | _ | _) <;> rfl

theorem roundToNearestEven_bounds (m : Nat) (acc : Accuracy) :
    m ≤ acc.roundToNearestEven m ∧ acc.roundToNearestEven m ≤ m + 1 := by
  rcases acc with _ | (_ | _ | _) <;> simp only [Accuracy.roundToNearestEven] <;> omega

/-- What is left of a mantissa that is shifted to fit the format. -/
theorem mantissa_shiftToTargetExponent (m : Nat) (e : Int) (acc : Accuracy) :
    (shiftToTargetExponent .binary64 m e acc).1.mantissa =
      m / 2 ^ (max ((m.log2 : Int) + 1 + e - 53) (-1074) - e).toNat := by
  unfold shiftToTargetExponent shiftToExponent
  rw [targetExponent_eq, totalExponent, mantissa_shiftRight, mantissa_ofMantissaAndAccuracy]

theorem exponent_shiftToTargetExponent (m : Nat) (e : Int) (acc : Accuracy) :
    (shiftToTargetExponent .binary64 m e acc).2 =
      e + ((max ((m.log2 : Int) + 1 + e - 53) (-1074) - e).toNat : Nat) := rfl

/-- A mantissa and an exponent of the format whose product is less than `2 ^ k`. -/
structure Fitting (k : Int) (m : Nat) (e : Int) : Prop where
  lt : m < 2 ^ 53
  least : -1074 ≤ e
  le : e + 53 ≤ k

theorem fitting_shiftToTargetExponent (acc : Accuracy) (hlow : -1021 ≤ k) (he : e + 53 ≤ k)
    (hm : (m.log2 : Int) + 1 + e ≤ k) :
    Fitting k (shiftToTargetExponent .binary64 m e acc).1.mantissa
      (shiftToTargetExponent .binary64 m e acc).2 := by
  rw [mantissa_shiftToTargetExponent, exponent_shiftToTargetExponent]
  refine ⟨?_, by omega, by omega⟩
  rw [Nat.div_lt_iff_lt_mul (Nat.two_pow_pos _), ← Nat.pow_add]
  exact Nat.lt_of_lt_of_le Nat.lt_log2_self (Nat.pow_le_pow_right two_pos (by omega))

/-- Nothing is lost of a mantissa that fits into the format at its exponent or at a greater one. -/
theorem mantissa_shiftToTargetExponent_pos (acc : Accuracy) (hm : 0 < m) (he : -1074 ≤ e) :
    0 < (shiftToTargetExponent .binary64 m e acc).1.mantissa := by
  rw [mantissa_shiftToTargetExponent]
  refine Nat.div_pos (Nat.le_trans ?_ (Nat.log2_self_le hm.ne')) (Nat.two_pow_pos _)
  exact Nat.pow_le_pow_right two_pos (by omega)

/-- The sizes that doubles are compared with: a zero has any size, and no other number than a finite one
has a size. -/
def Within (k : Int) : UnpackedFloat → Prop
  | .zero _ => True
  | .finite _ m e _ => Fitting k m e
  | _ => False

instance : Decidable (Fitting k m e) :=
  decidable_of_iff (m < 2 ^ 53 ∧ -1074 ≤ e ∧ e + 53 ≤ k)
    ⟨fun h => ⟨h.1, h.2.1, h.2.2⟩, fun h => ⟨h.lt, h.least, h.le⟩⟩

instance : (u : UnpackedFloat) → Decidable (Within k u)
  | .zero _ => .isTrue trivial
  | .finite _ m e _ => inferInstanceAs (Decidable (Fitting k m e))
  | .infinity _ | .notANumber => .isFalse id

theorem Within.mono {u : UnpackedFloat} {k' : Int} (h : Within k u) (hle : k ≤ k') : Within k' u := by
  cases u with
  | zero s => trivial
  | finite s m e hm => exact ⟨h.lt, h.least, h.le.trans hle⟩
  | _ => exact h

/-- Rounding doubles a number at most. -/
theorem within_roundWithAccuracy (s : Sign) (acc : Accuracy) (hlow : -1021 ≤ k) (he : e + 53 ≤ k)
    (hm : (m.log2 : Int) + 1 + e ≤ k) : Within (k + 1) (roundWithAccuracy .binary64 s m e acc) := by
  obtain ⟨hlt, hleast, hle⟩ := fitting_shiftToTargetExponent acc hlow he hm
  unfold roundWithAccuracy
  generalize shiftToTargetExponent .binary64 m e acc = shifted at *
  have hrounded : shifted.1.roundedMantissa ≤ 2 ^ 53 :=
    (roundToNearestEven_bounds _ _).2.trans hlt
  have hlog : shifted.1.roundedMantissa.log2 < 54 := by
    rcases Nat.eq_zero_or_pos shifted.1.roundedMantissa with hzero | hpos
    · rw [hzero]
      decide
    · exact (Nat.log2_lt hpos.ne').mpr (Nat.lt_of_le_of_lt hrounded (by decide))
  -- rounding up may carry into one more bit, which a second shift drops
  have hfitting := fitting_shiftToTargetExponent (m := shifted.1.roundedMantissa) (e := shifted.2)
    (k := k + 1) .exact (by omega) (by omega) (by omega)
  dsimp only
  split
  · trivial
  · exact hfitting

theorem log2_shiftLeft (hm : 0 < m) (n : Nat) : (m <<< n).log2 = m.log2 + n := by
  rw [Nat.shiftLeft_eq, Nat.log2_eq_iff (Nat.mul_pos hm (Nat.two_pow_pos n)).ne', Nat.pow_add,
    Nat.add_right_comm, Nat.pow_add]
  exact ⟨Nat.mul_le_mul_right _ (Nat.log2_self_le hm.ne'),
    Nat.mul_lt_mul_of_pos_right Nat.lt_log2_self (Nat.two_pow_pos n)⟩

theorem within_round (s : Sign) (hpos : 0 < m) (hlow : -1021 ≤ k) (hm : (m.log2 : Int) + 1 + e ≤ k) :
    Within (k + 1) (UnpackedFloat.round .binary64 s m e) := by
  unfold UnpackedFloat.round decreaseExponent
  rw [targetExponent_eq, totalExponent]
  refine within_roundWithAccuracy s _ hlow (by omega) ?_
  rw [log2_shiftLeft hpos]
  push_cast
  omega

theorem roundWithAccuracy_ne_zero (s s' : Sign) (acc : Accuracy) (hm : 0 < m) (he : -1074 ≤ e) :
    roundWithAccuracy .binary64 s m e acc ≠ .zero s' := by
  have hpos := mantissa_shiftToTargetExponent_pos acc hm he
  have hleast : -1074 ≤ (shiftToTargetExponent .binary64 m e acc).2 := by
    rw [exponent_shiftToTargetExponent]
    omega
  unfold roundWithAccuracy
  generalize shiftToTargetExponent .binary64 m e acc = shifted at *
  have hrounded : 0 < shifted.1.roundedMantissa :=
    Nat.lt_of_lt_of_le hpos (roundToNearestEven_bounds _ _).1
  have hagain := mantissa_shiftToTargetExponent_pos .exact hrounded hleast
  dsimp only
  rw [dif_neg hagain.ne']
  exact nofun

theorem round_ne_zero (s s' : Sign) (hm : 0 < m) (he : -1074 ≤ e) :
    UnpackedFloat.round .binary64 s m e ≠ .zero s' := by
  unfold UnpackedFloat.round decreaseExponent
  rw [targetExponent_eq, totalExponent]
  refine roundWithAccuracy_ne_zero s s' _ ?_ (by omega)
  rw [Nat.shiftLeft_eq]
  exact Nat.mul_pos hm (Nat.two_pow_pos _)

theorem within_normalize {i : Int} {n : Nat} (s : Sign) (hlow : -1021 ≤ k) (hi : i.natAbs < 2 ^ n)
    (hn : n + e ≤ k) : Within (k + 1) (UnpackedFloat.normalize .binary64 i e s) := by
  have hlog : ∀ m : Nat, 0 < m → m = i.natAbs → (m.log2 : Int) + 1 + e ≤ k := by
    rintro m hpos rfl
    have hlt := (Nat.log2_lt hpos.ne').mpr hi
    omega
  unfold UnpackedFloat.normalize
  split
  · next hc =>
    have hneg := Int.compare_eq_lt.mp hc
    exact within_round _ (by omega) hlow (hlog _ (by omega) (by omega))
  · trivial
  · next hc =>
    have hpos := Int.compare_eq_gt.mp hc
    exact within_round _ (by omega) hlow (hlog _ (by omega) (by omega))

theorem normalize_ne_zero {i : Int} {s : Sign} (hpos : s = .positive) (he : -1074 ≤ e) :
    UnpackedFloat.normalize .binary64 i e s ≠ .zero .negative := by
  unfold UnpackedFloat.normalize
  split
  · next hc =>
    have hneg := Int.compare_eq_lt.mp hc
    exact round_ne_zero _ _ (by omega) he
  · rw [hpos]
    exact nofun
  · next hc =>
    have hpos := Int.compare_eq_gt.mp hc
    exact round_ne_zero _ _ (by omega) he

theorem natAbs_apply (s : Sign) (i : Int) : (s.apply i).natAbs = i.natAbs := by
  cases s
  · exact Int.natAbs_neg i
  · rfl

end Rounding

/-! ## Sums -/

section Sums

variable {u w : UnpackedFloat} {k : Int}

/-- The mantissa of one of two summands in units of the smaller last bit. -/
theorem decreaseExponent_lt {m : Nat} {e e' : Int} {n : Nat} (hm : m < 2 ^ 53)
    (hn : 53 + (e - e').toNat ≤ n) : (decreaseExponent m e e').1 < 2 ^ n := by
  change m <<< (e - e').toNat < 2 ^ n
  rw [Nat.shiftLeft_eq]
  calc m * 2 ^ (e - e').toNat < 2 ^ 53 * 2 ^ (e - e').toNat :=
        Nat.mul_lt_mul_of_pos_right hm (Nat.two_pow_pos _)
    _ = 2 ^ (53 + (e - e').toNat) := (Nat.pow_add 2 53 _).symm
    _ ≤ 2 ^ n := Nat.pow_le_pow_right two_pos hn

theorem Within.add (h : Within k u) (h' : Within k w) (hlow : -1021 ≤ k) :
    Within (k + 2) (u.add .binary64 w) := by
  cases u with
  | zero s =>
    cases w with
    | zero s' =>
      unfold UnpackedFloat.add
      dsimp only
      split <;> trivial
    | finite s' m' e' hm' => exact h'.mono (by omega)
    | _ => exact h'.elim
  | finite s m e hm =>
    cases w with
    | zero s' => exact h.mono (by omega)
    | finite s' m' e' hm' =>
      obtain ⟨hlt, -, hle⟩ := h
      obtain ⟨hlt', -, hle'⟩ := h'
      -- both summands have at most `n` bits above the smaller last bit, and the sum at most one more
      obtain ⟨n, hn⟩ : ∃ n : Nat, (n : Int) = max e e' + 53 - min e e' :=
        ⟨(max e e' + 53 - min e e').toNat, by omega⟩
      have hleft := @decreaseExponent_lt m e (min e e') n hlt (by omega)
      have hright := @decreaseExponent_lt m' e' (min e e') n hlt' (by omega)
      refine (@within_normalize (min e e') (k + 1) _ (n + 1) .positive (by omega) ?_ (by omega)).mono
        (by omega)
      refine Nat.lt_of_le_of_lt (Int.natAbs_add_le _ _) ?_
      rw [natAbs_apply, natAbs_apply, Int.natAbs_natCast, Int.natAbs_natCast, Nat.pow_succ, Nat.mul_two]
      exact Nat.add_lt_add hleft hright
    | _ => exact h'.elim
  | _ => exact h.elim

end Sums

/-! ## Packing -/

section Packing

variable {k : Int} {u : UnpackedFloat} {x : Float}

/-- The double is at most `2 ^ k` in size. -/
def Below (k : Int) (x : Float) : Prop := Within k x.toModel.unpack

instance : Decidable (Below k x) := inferInstanceAs (Decidable (Within k x.toModel.unpack))

/-- The double that the logical model packs. -/
def packed (u : UnpackedFloat) : Float := .ofModel (.pack u)

theorem add_eq (x y : Float) : x + y = packed (x.toModel.unpack.add .binary64 y.toModel.unpack) := rfl

theorem sub_eq (x y : Float) : x - y = packed (x.toModel.unpack.sub .binary64 y.toModel.unpack) := rfl

theorem mul_eq (x y : Float) : x * y = packed (x.toModel.unpack.mul .binary64 y.toModel.unpack) := rfl

theorem unpack_of_not_isFinite (h : isFinite x = false) :
    x.toModel.unpack = .notANumber ∨ ∃ s, x.toModel.unpack = .infinity s := by
  rw [isFinite, decide_eq_false_iff_not] at h
  have hexponent : (@unpackExponent .binary64 x.toBits.toBitVec) = -1#11 := by
    rw [← BitVec.toNat_inj, toNat_unpackExponent]
    have hlt : magnitudeBits x < signWeight := Nat.mod_lt _ (by decide)
    simp only [infinityBits, signWeight, binade] at h hlt ⊢
    change _ = 2047
    omega
  change UnpackedFloat.unpack .binary64 x.toBits.toBitVec = _ ∨
    ∃ s, UnpackedFloat.unpack .binary64 x.toBits.toBitVec = _
  unfold UnpackedFloat.unpack
  dsimp only
  rw [if_pos hexponent]
  split
  · exact Or.inr ⟨_, rfl⟩
  · exact Or.inl rfl

theorem Below.isFinite (h : Below k x) : isFinite x = true := by
  unfold Below at h
  cases hx : Binary64.isFinite x with
  | true => rfl
  | false =>
    rcases unpack_of_not_isFinite hx with hu | ⟨s, hu⟩ <;>
      · rw [hu] at h
        exact h.elim

/-- A finite double is within the size of the format. -/
theorem below_of_isFinite (h : isFinite x = true) : Below 1024 x := by
  rw [← finite?_isSome] at h
  obtain ⟨v, hv⟩ := Option.isSome_iff_exists.mp h
  obtain ⟨⟨hlt, -, hleast, hgreatest⟩, -⟩ := finite?_eq_some hv
  unfold Below
  rw [unpack_eq hv, Finite.unpacked]
  split
  · exact ⟨hlt, hleast, by omega⟩
  · trivial

theorem within_unpack {s : Sign} {b : BitVec Format.binary64.exponentBits}
    {v : BitVec Format.binary64.mantissaBitsWithoutImplicit} (hlow : -1021 ≤ k) (hhigh : k ≤ 1024)
    (hb : (b.toNat : Int) ≤ k + 1022) :
    Within k (UnpackedFloat.unpack .binary64 (packComponents .binary64 s b v)) := by
  simp only [UnpackedFloat.unpack, unpackExponent_packComponents, unpackMantissa_packComponents]
  rw [if_neg]
  · split
    · split
      · trivial
      · next hzero _ =>
        subst hzero
        exact ⟨v.isLt.trans_le (Nat.pow_le_pow_right two_pos (by decide)), le_refl _, hlow⟩
    · next hzero =>
      have hpos : b.toNat ≠ 0 := fun h => hzero (BitVec.toNat_inj.mp h)
      refine ⟨(BitVec.isLt _).trans_le (Nat.pow_le_pow_right two_pos (by decide)), ?_, ?_⟩
      · change -1074 ≤ (b.toNat : Int) - 1075
        omega
      · change (b.toNat : Int) - 1075 + 53 ≤ k
        omega
  · intro h
    have hall : b.toNat = 2047 := congrArg BitVec.toNat h
    omega

/-- The exponent as it is packed. -/
theorem toNat_biased (e : Int) :
    (e + Format.binary64.exponentBias + Format.binary64.mantissaBitsWithoutImplicit).toNat =
      (e + 1075).toNat := by
  change (e + 1023 + 52).toNat = _
  rw [Int.add_assoc]
  rfl

/-- Packing keeps the size of what fits into the format. -/
theorem below_packed (h : Within k u) (hlow : -1021 ≤ k) (hhigh : k ≤ 1024) : Below k (packed u) := by
  change Within k (UnpackedFloat.unpack .binary64 (UnpackedFloat.pack .binary64 u))
  cases u with
  | zero s =>
    refine within_unpack hlow hhigh ?_
    change (0 : Int) ≤ k + 1022
    omega
  | finite s m e hm =>
    obtain ⟨-, hleast, hle⟩ := h
    unfold UnpackedFloat.pack
    dsimp only
    rw [toNat_biased]
    generalize hn : (e + 1075).toNat = n
    split
    · next hinf =>
      change 2048 ≤ n + 1 at hinf
      omega
    · split
      · refine within_unpack hlow hhigh (le_trans ?_ (show (n : Int) ≤ k + 1022 by omega))
        exact_mod_cast Nat.mod_le n (2 ^ 11)
      · refine within_unpack hlow hhigh ?_
        change (0 : Int) ≤ k + 1022
        omega
  | _ => exact h.elim

end Packing

end Telemetry.Binary64

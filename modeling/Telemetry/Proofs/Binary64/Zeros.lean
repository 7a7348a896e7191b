import Telemetry.Proofs.Binary64.Magnitude

/-!
# Doubles up to the sign of zero

Finite doubles of one value are the same double or both zeros (`alike_of_value_eq`), and so are their
differences (`Alike.sub`).  A sum that does not start at the negative zero never becomes it
(`add_ne_negZero`), and such a sum does not depend on the signs of the zeros that it adds
(`Alike.add_left`).
-/

namespace Telemetry.Binary64

open Float.Model Float.Model.UnpackedFloat

variable {x y x' y' : Float}

/-! ## Zeros -/

/-- One of the two zeros. -/
def IsZero (x : Float) : Prop := ∃ s, x.toModel.unpack = .zero s

theorem unpack_packed_zero (s : Sign) : (packed (.zero s)).toModel.unpack = .zero s := by
  cases s <;> rfl

/-! ## Doubles of one value -/

/-- The same double, or zeros of any signs. -/
def Alike (x y : Float) : Prop := x = y ∨ (IsZero x ∧ IsZero y)

theorem Finite.value_eq_zero_iff {v : Finite} : v.value = 0 ↔ v.mantissa = 0 := by
  refine ⟨fun h => ?_, Finite.value_eq_zero⟩
  by_contra hne
  have hpos := Finite.magnitude_pos (Nat.pos_of_ne_zero hne)
  unfold Finite.value at h
  split at h <;> linarith

theorem Finite.eq_of_value_eq {v w : Finite} (hv : v.WF) (hw : w.WF) (hne : v.value ≠ 0)
    (h : v.value = w.value) : v = w := by
  have hvpos := Finite.magnitude_pos (Nat.pos_of_ne_zero (mt Finite.value_eq_zero_iff.mpr hne))
  have hwpos := Finite.magnitude_pos (Nat.pos_of_ne_zero (mt Finite.value_eq_zero_iff.mpr (h ▸ hne)))
  have hparts : v.negative = w.negative ∧ v.magnitude = w.magnitude := by
    unfold Finite.value at h
    split at h <;> split at h
    · next hneg hneg' => exact ⟨hneg.trans hneg'.symm, neg_injective h⟩
    · linarith
    · linarith
    · next hneg hneg' => exact ⟨Bool.eq_iff_iff.mpr (iff_of_false hneg hneg'), h⟩
  obtain ⟨hnegative, hmagnitude⟩ := hparts
  have hcmp := Finite.cmp_magnitude hv hw
  rw [hmagnitude, cmp_self_eq_eq, eq_comm, Ordering.then_eq_eq, compare_eq_iff_eq,
    compare_eq_iff_eq] at hcmp
  obtain ⟨n, m, e⟩ := v
  obtain ⟨n', m', e'⟩ := w
  obtain ⟨rfl, rfl⟩ := hcmp
  obtain rfl : n = n' := hnegative
  rfl

/-- **Finite doubles of one value** are the same but for the sign of zero. -/
theorem alike_of_value_eq (hx : isFinite x = true) (hy : isFinite y = true) (h : value x = value y) :
    Alike x y := by
  rw [← finite?_isSome] at hx hy
  obtain ⟨v, hv⟩ := Option.isSome_iff_exists.mp hx
  obtain ⟨w, hw⟩ := Option.isSome_iff_exists.mp hy
  rw [value, value, hv, hw] at h
  change v.value = w.value at h
  by_cases hzero : v.value = 0
  · refine Or.inr ⟨⟨v.sign, ?_⟩, ⟨w.sign, ?_⟩⟩
    · rw [unpack_eq hv, Finite.unpacked_zero (Finite.value_eq_zero_iff.mp hzero)]
    · rw [unpack_eq hw, Finite.unpacked_zero (Finite.value_eq_zero_iff.mp (h ▸ hzero))]
  · left
    rw [← ofSignBits_bits hv, ← ofSignBits_bits hw,
      Finite.eq_of_value_eq (finite?_eq_some hv).1 (finite?_eq_some hw).1 hzero h]

theorem sub_zeros (s s' : Sign) :
    ∃ a, UnpackedFloat.sub .binary64 (.zero s) (.zero s') = .zero a := by
  unfold UnpackedFloat.sub
  dsimp only
  split <;> exact ⟨_, rfl⟩

theorem isZero_sub (hx : IsZero x) (hy : IsZero y) : IsZero (x - y) := by
  obtain ⟨s, hs⟩ := hx
  obtain ⟨s', hs'⟩ := hy
  obtain ⟨a, ha⟩ := sub_zeros s s'
  refine ⟨a, ?_⟩
  rw [sub_eq, hs, hs', ha, unpack_packed_zero]

/-- A zero of any sign is taken from any other number, and any other number from it, alike. -/
theorem sub_of_ne_zero {u : UnpackedFloat} (hu : ∀ s, u ≠ .zero s) (s s' : Sign) :
    UnpackedFloat.sub .binary64 u (.zero s) = UnpackedFloat.sub .binary64 u (.zero s') ∧
      UnpackedFloat.sub .binary64 (.zero s) u = UnpackedFloat.sub .binary64 (.zero s') u := by
  cases u with
  | zero a => exact absurd rfl (hu a)
  | _ => exact ⟨rfl, rfl⟩

/-- Differences of doubles of one value have one value. -/
theorem Alike.sub (hx : Alike x x') (hy : Alike y y') : Alike (x - y) (x' - y') := by
  rcases hx with rfl | ⟨hx, hx'⟩ <;> rcases hy with rfl | ⟨hy, hy'⟩
  · exact Or.inl rfl
  · by_cases hzero : IsZero x
    · exact Or.inr ⟨isZero_sub hzero hy, isZero_sub hzero hy'⟩
    · obtain ⟨s, hs⟩ := hy
      obtain ⟨s', hs'⟩ := hy'
      left
      rw [sub_eq, sub_eq, hs, hs', (sub_of_ne_zero (not_exists.mp hzero) s s').1]
  · by_cases hzero : IsZero y
    · exact Or.inr ⟨isZero_sub hx hzero, isZero_sub hx' hzero⟩
    · obtain ⟨s, hs⟩ := hx
      obtain ⟨s', hs'⟩ := hx'
      left
      rw [sub_eq, sub_eq, hs, hs', (sub_of_ne_zero (not_exists.mp hzero) s s').2]
  · exact Or.inr ⟨isZero_sub hx hy, isZero_sub hx' hy'⟩

/-! ## Sums -/

/-- The double is the negative zero. -/
def IsNegZero (x : Float) : Prop := x.toModel.unpack = .zero .negative

/-- There is only one zero without a sign. -/
theorem IsZero.finite?_eq {v : Finite} (h : IsZero x) (hneg : ¬ IsNegZero x) (hv : finite? x = some v) :
    v = ⟨false, 0, -1074⟩ := by
  obtain ⟨s, hs⟩ := h
  obtain ⟨hfull, -⟩ := finite?_eq_some hv
  have hunpack := unpack_eq hv
  have hzero : v.mantissa = 0 := by
    by_contra hne
    rw [Finite.unpacked_pos (Nat.pos_of_ne_zero hne), hs] at hunpack
    cases hunpack
  have hnegative : v.negative = false := by
    rw [Finite.unpacked_zero hzero] at hunpack
    by_contra hne
    rw [Bool.not_eq_false] at hne
    rw [Finite.sign, if_pos hne] at hunpack
    exact hneg hunpack
  have hexponent : v.exponent = -1074 := by
    refine hfull.full.resolve_left ?_
    rw [hzero]
    decide
  obtain ⟨n, m, e⟩ := v
  obtain rfl : n = false := hnegative
  obtain rfl : m = 0 := hzero
  obtain rfl : e = -1074 := hexponent
  rfl

/-- **Without the negative zero there is one double for each value.** -/
theorem eq_of_value_eq (hx : isFinite x = true) (hy : isFinite y = true) (hx' : ¬ IsNegZero x)
    (hy' : ¬ IsNegZero y) (h : value x = value y) : x = y := by
  rcases alike_of_value_eq hx hy h with heq | ⟨hxzero, hyzero⟩
  · exact heq
  · rw [← finite?_isSome] at hx hy
    obtain ⟨v, hv⟩ := Option.isSome_iff_exists.mp hx
    obtain ⟨w, hw⟩ := Option.isSome_iff_exists.mp hy
    rw [← ofSignBits_bits hv, ← ofSignBits_bits hw, hxzero.finite?_eq hx' hv, hyzero.finite?_eq hy' hw]

theorem pack_finite_ne_zero {s s' : Sign} {m : Nat} {e : Int} {hm : 0 < m} (hlt : m < 2 ^ 53)
    (hleast : -1074 ≤ e) :
    UnpackedFloat.pack .binary64 (.finite s m e hm) ≠ packedZero .binary64 s' := by
  intro h
  unfold UnpackedFloat.pack at h
  dsimp only at h
  rw [toNat_biased] at h
  generalize hn : (e + 1075).toNat = n at h
  split at h
  · have hexponent := congrArg (fun b => (unpackExponent b).toNat) h
    simp only [packedInfinity, packedZero, unpackExponent_packComponents] at hexponent
    exact absurd hexponent (by decide)
  · next hfits =>
    change ¬ 2048 ≤ n + 1 at hfits
    split at h
    · have hexponent := congrArg (fun b => (unpackExponent b).toNat) h
      simp only [packedZero, unpackExponent_packComponents] at hexponent
      change n % 2048 = 0 at hexponent
      omega
    · next hlog =>
      change ¬ m.log2 + 1 = 53 at hlog
      have hmantissa := congrArg (fun b => (unpackMantissa b).toNat) h
      simp only [packedZero, unpackMantissa_packComponents] at hmantissa
      change m % 4503599627370496 = 0 at hmantissa
      have hlog' : m.log2 < 53 := (Nat.log2_lt hm.ne').mpr hlt
      have hsmall : m < 2 ^ 52 := (Nat.log2_lt hm.ne').mp (by omega)
      omega

/-- Mantissa and exponent are in the ranges of the format. -/
def InFormat : UnpackedFloat → Prop
  | .finite _ m e _ => m < 2 ^ 53 ∧ -1074 ≤ e
  | _ => True

theorem Within.inFormat {u : UnpackedFloat} {k : Int} (h : Within k u) : InFormat u := by
  cases u with
  | finite s m e hm => exact ⟨h.lt, h.least⟩
  | _ => trivial

theorem inFormat_unpack (x : Float) : InFormat x.toModel.unpack := by
  cases hx : isFinite x with
  | true => exact (below_of_isFinite hx).inFormat
  | false => rcases unpack_of_not_isFinite hx with h | ⟨s, h⟩ <;> rw [h] <;> trivial

theorem packed_ne_negZero {u : UnpackedFloat} (h : InFormat u) (hu : u ≠ .zero .negative) :
    ¬ IsNegZero (packed u) := by
  intro hzero
  replace hzero : UnpackedFloat.pack .binary64 u = packedZero .binary64 .negative :=
    (unpack_eq_zero_iff_of_valid valid_pack).mp hzero
  cases u with
  | zero s =>
    cases s with
    | negative => exact hu rfl
    | positive => exact absurd hzero (by decide)
  | finite s m e hm => exact pack_finite_ne_zero h.1 h.2 hzero
  | infinity s => cases s <;> exact absurd hzero (by decide)
  | notANumber => exact absurd hzero (by decide)

/-- Adding to what is not the negative zero never gives the negative zero. -/
theorem add_inFormat {u w : UnpackedFloat} (hu : InFormat u) (hw : InFormat w) (hne : u ≠ .zero .negative) :
    InFormat (u.add .binary64 w) ∧ u.add .binary64 w ≠ .zero .negative := by
  cases u with
  | notANumber => exact ⟨trivial, nofun⟩
  | infinity s =>
    cases w with
    | infinity s' =>
      unfold UnpackedFloat.add
      dsimp only
      split <;> exact ⟨trivial, nofun⟩
    | _ => exact ⟨trivial, nofun⟩
  | zero s =>
    cases w with
    | zero s' =>
      unfold UnpackedFloat.add
      dsimp only
      split
      · exact ⟨trivial, hne⟩
      · exact ⟨trivial, nofun⟩
    | finite s' m' e' hm' => exact ⟨hw, nofun⟩
    | _ => exact ⟨trivial, nofun⟩
  | finite s m e hm =>
    cases w with
    | finite s' m' e' hm' =>
      have hsum : Within (max e e' + 53 + 2)
          (UnpackedFloat.add .binary64 (.finite s m e hm) (.finite s' m' e' hm')) := by
        refine Within.add ⟨hu.1, hu.2, ?_⟩ ⟨hw.1, hw.2, ?_⟩ ?_
        · exact add_le_add_left (le_max_left e e') 53
        · exact add_le_add_left (le_max_right e e') 53
        · exact add_le_add_left (le_max_of_le_left hu.2) 53
      exact ⟨hsum.inFormat, normalize_ne_zero rfl (le_min hu.2 hw.2)⟩
    | zero s' => exact ⟨hu, nofun⟩
    | _ => exact ⟨trivial, nofun⟩

/-- **A sum is the negative zero only if it starts there.** -/
theorem add_ne_negZero (hx : ¬ IsNegZero x) (y : Float) : ¬ IsNegZero (x + y) := by
  obtain ⟨hformat, hne⟩ := add_inFormat (inFormat_unpack x) (inFormat_unpack y) hx
  exact packed_ne_negZero hformat hne

/-- Such a sum does not depend on the signs of the zeros in it. -/
theorem Alike.add_left (h : Alike y y') (hx : ¬ IsNegZero x) : x + y = x + y' := by
  rcases h with rfl | ⟨⟨s, hs⟩, ⟨s', hs'⟩⟩
  · rfl
  · unfold IsNegZero at hx
    rw [add_eq, add_eq, hs, hs']
    cases hu : x.toModel.unpack with
    | zero a =>
      cases a with
      | negative => exact absurd hu hx
      | positive => cases s <;> cases s' <;> rfl
    | _ => rfl

end Telemetry.Binary64

import Telemetry.Calendar
import Telemetry.Proofs.Binary64.Operations
import Telemetry.Proofs.Numeral.Digits

/-!
# The fraction of a second

A fraction is summed up digit by digit, each digit with a weight that is a tenth of the one before.
Weights and sums are rounded, and the number of digits is not limited.  Nines in all places have the
greatest sum; after a few of them it is one and stays there (`capped`), so every fraction is between
zero and one (`inUnit_fractionValue`).  Zeros at its end add nothing, so digits that stand for one
number have one sum (`fractionValue_congr`).
-/

namespace Telemetry.DateTime

open Bytes Binary64

/-! ## Weighted sums -/

/-- The sum of digits with a weight for the first one, added to a start. -/
def weighted : Bytes → Float → Float → Float
  | [], acc, _ => acc
  | d :: ds, acc, scale => weighted ds (acc + Float.ofNat (digitValue d) * scale) (scale / 10)

theorem foldl_eq_weighted (ds : Bytes) (acc scale : Float) :
    (ds.foldl (fun (acc, scale) d => (acc + Float.ofNat (digitValue d) * scale, scale / 10))
      (acc, scale)).1 = weighted ds acc scale := by
  induction ds generalizing acc scale with
  | nil => rfl
  | cons d ds ih => exact ih _ _

theorem fractionValue_eq_weighted (t : DateTime) : t.fractionValue = weighted t.fraction 0 0.1 :=
  foldl_eq_weighted t.fraction 0 0.1

/-! ## Between zero and one -/

/-- A finite double from zero to one. -/
structure InUnit (x : Float) : Prop where
  finite : isFinite x = true
  nonneg : 0 ≤ value x
  le_one : value x ≤ 1

variable {x acc cap scale scale' : Float}

/-- What is added up here is far from the greatest double. -/
theorem abs_le_huge {v : ℚ} (hnonneg : 0 ≤ v) (hle : v ≤ 16) : |v| ≤ 2 ^ 1023 := by
  have hpower : (16 : ℚ) = 2 ^ 4 := by norm_num
  rw [abs_of_nonneg hnonneg]
  exact (hle.trans_eq hpower).trans (pow_le_pow_right₀ one_le_two (by decide))

theorem inUnit_zero : InUnit 0 := ⟨value_zero.1, value_zero.2.ge, value_zero.2.trans_le zero_le_one⟩

theorem inUnit_one : InUnit 1 := ⟨value_one.1, value_one.2.symm ▸ zero_le_one, value_one.2.le⟩

theorem inUnit_of_le_one (hfinite : isFinite x = true) (hnonneg : 0 ≤ value x) (hle : x ≤ 1) : InUnit x :=
  ⟨hfinite, hnonneg, ((le_iff hfinite inUnit_one.finite).mp hle).trans inUnit_one.le_one⟩

namespace InUnit

/-- The next weight is no greater. -/
theorem div_ten (h : InUnit scale) : InUnit (scale / 10) ∧ value (scale / 10) ≤ value scale := by
  obtain ⟨hten, hvalue⟩ : isFinite (10 : Float) = true ∧ value (10 : Float) = (10 : Nat) :=
    value_ofNat (by decide)
  have hnonneg : 0 ≤ value scale / (10 : Nat) := div_nonneg h.nonneg (Nat.cast_nonneg _)
  have hle : value scale / (10 : Nat) ≤ value scale := div_le_self h.nonneg (by norm_num)
  have hone := h.le_one
  obtain ⟨hfinite, hround⟩ := value_div h.finite hten (by rw [hvalue]; norm_num)
    (by rw [hvalue]; exact abs_le_huge hnonneg (by linarith))
  rw [hvalue] at hround
  have hlow := nearest_mono hnonneg
  have hhigh := nearest_mono hle
  rw [nearest_zero, ← hround] at hlow
  rw [nearest_value h.finite, ← hround] at hhigh
  exact ⟨⟨hfinite, hlow, hhigh.trans h.le_one⟩, hhigh⟩

theorem value_digit_mul (h : InUnit scale) {d : Nat} (hd : d ≤ 9) :
    isFinite (Float.ofNat d * scale) = true ∧ value (Float.ofNat d * scale) = nearest (d * value scale) := by
  obtain ⟨hfinite, hvalue⟩ := value_ofNat (n := d) (hd.trans_lt (by decide))
  have hd' : (d : ℚ) ≤ 9 := by exact_mod_cast hd
  have hproduct := mul_le_mul hd' h.le_one h.nonneg (by norm_num)
  have hmul := value_mul hfinite h.finite
    (hvalue ▸ abs_le_huge (mul_nonneg (Nat.cast_nonneg d) h.nonneg) (by linarith))
  rwa [hvalue] at hmul

/-- A digit is weighted and added with one rounding each. -/
theorem value_add_digit (hacc : InUnit acc) (hscale : InUnit scale) {d : Nat} (hd : d ≤ 9) :
    isFinite (acc + Float.ofNat d * scale) = true ∧
      value (acc + Float.ofNat d * scale) = nearest (value acc + nearest (d * value scale)) := by
  obtain ⟨hfinite, hvalue⟩ := hscale.value_digit_mul hd
  have hnonneg := nearest_mono (mul_nonneg (Nat.cast_nonneg d) hscale.nonneg)
  have hnine := nearest_mono ((mul_le_of_le_one_right (Nat.cast_nonneg d) hscale.le_one).trans
    (by exact_mod_cast hd : (d : ℚ) ≤ (9 : Int)))
  have hone := hacc.le_one
  rw [nearest_zero] at hnonneg
  rw [nearest_intCast (by decide), Int.cast_ofNat] at hnine
  rw [← hvalue] at hnonneg hnine ⊢
  exact value_add hacc.finite hfinite (abs_le_huge (add_nonneg hacc.nonneg hnonneg) (by linarith))

theorem le_add_digit (hacc : InUnit acc) (hscale : InUnit scale) {d : Nat} (hd : d ≤ 9) :
    value acc ≤ value (acc + Float.ofNat d * scale) := by
  have hnonneg := nearest_mono (mul_nonneg (Nat.cast_nonneg d) hscale.nonneg)
  rw [nearest_zero] at hnonneg
  have hround := nearest_mono (le_add_of_nonneg_right (a := value acc) hnonneg)
  rwa [nearest_value hacc.finite, ← (hacc.value_add_digit hscale hd).2] at hround

/-- **A sum grows with its start, with the digit and with the weight.** -/
theorem add_digit_mono (hacc : InUnit acc) (hcap : InUnit cap) (hscale : InUnit scale)
    (hscale' : InUnit scale') (hle : value acc ≤ value cap) (hweight : value scale ≤ value scale')
    {d d' : Nat} (hd : d ≤ d') (hd' : d' ≤ 9) :
    value (acc + Float.ofNat d * scale) ≤ value (cap + Float.ofNat d' * scale') := by
  have hshare : (d : ℚ) * value scale ≤ d' * value scale' :=
    mul_le_mul (by exact_mod_cast hd) hweight hscale.nonneg (Nat.cast_nonneg d')
  rw [(hacc.value_add_digit hscale (hd.trans hd')).2, (hcap.value_add_digit hscale' hd').2]
  exact nearest_mono (add_le_add hle (nearest_mono hshare))

end InUnit

/-- Nines in some places, and then in all that follow, do not sum up to more than one. -/
def Capped : Nat → Float → Float → Prop
  | 0, cap, scale => cap ≤ 1 ∧ 1 + Float.ofNat 9 * scale ≤ 1
  | n + 1, cap, scale => cap ≤ 1 ∧ Capped n (cap + Float.ofNat 9 * scale) (scale / 10)

instance instDecidableCapped : (n : Nat) → (cap scale : Float) → Decidable (Capped n cap scale)
  | 0, cap, scale => inferInstanceAs (Decidable (cap ≤ 1 ∧ 1 + Float.ofNat 9 * scale ≤ 1))
  | n + 1, cap, scale =>
    @instDecidableAnd _ _ _ (instDecidableCapped n (cap + Float.ofNat 9 * scale) (scale / 10))

/-- The weights of all decimals from some place on are lost in a sum that is one already. -/
theorem capped : Capped 16 0 0.1 := by decide +kernel

theorem Capped.le_one {n : Nat} (h : Capped n cap scale) : cap ≤ 1 := by
  cases n with
  | zero => exact h.1
  | succ n => exact h.1

/-- What is lost in a sum of one is lost with the next weight too. -/
theorem Capped.next (h : Capped 0 cap scale) (hscale : InUnit scale) : Capped 0 1 (scale / 10) := by
  obtain ⟨hnext, hsmaller⟩ := hscale.div_ten
  have hnine := (inUnit_one.value_add_digit hscale (le_refl 9)).1
  have hnine' := (inUnit_one.value_add_digit hnext (le_refl 9)).1
  refine ⟨(le_iff inUnit_one.finite inUnit_one.finite).mpr (le_refl _), ?_⟩
  rw [le_iff hnine' inUnit_one.finite]
  exact (inUnit_one.add_digit_mono inUnit_one hnext hscale (le_refl _) hsmaller (le_refl 9) (le_refl 9)).trans
    ((le_iff hnine inUnit_one.finite).mp h.2)

/-- **A sum of weighted digits is capped by the sum of nines.** -/
theorem inUnit_weighted {n : Nat} (h : Capped n cap scale) (hcap : isFinite cap = true)
    (hscale : InUnit scale) (hacc : isFinite acc = true) (hnonneg : 0 ≤ value acc)
    (hle : value acc ≤ value cap) {ds : Bytes} (hds : ds.all isDigit = true) :
    InUnit (weighted ds acc scale) := by
  induction ds generalizing n cap acc scale with
  | nil =>
    have hcapUnit := inUnit_of_le_one hcap (hnonneg.trans hle) h.le_one
    exact ⟨hacc, hnonneg, hle.trans hcapUnit.le_one⟩
  | cons d ds ih =>
    rw [List.all_cons, Bool.and_eq_true] at hds
    have hd : digitValue d ≤ 9 := by
      have hdigit := (isDigit_iff.mp hds.1).2
      rw [digitValue_of_isDigit hds.1]
      omega
    have hcapUnit := inUnit_of_le_one hcap (hnonneg.trans hle) h.le_one
    have haccUnit : InUnit acc := ⟨hacc, hnonneg, hle.trans hcapUnit.le_one⟩
    obtain ⟨hnext, -⟩ := hscale.div_ten
    have hfinite := (haccUnit.value_add_digit hscale hd).1
    have hgrows := hnonneg.trans (haccUnit.le_add_digit hscale hd)
    rw [weighted]
    cases n with
    | zero =>
      have hone : value acc ≤ value 1 := hle.trans ((le_iff hcap inUnit_one.finite).mp h.1)
      have hlost := (le_iff (inUnit_one.value_add_digit hscale (le_refl 9)).1 inUnit_one.finite).mp h.2
      exact ih (h.next hscale) inUnit_one.finite hnext hfinite hgrows
        ((haccUnit.add_digit_mono inUnit_one hscale hscale hone (le_refl _) hd (le_refl 9)).trans hlost) hds.2
    | succ n =>
      exact ih h.2 (hcapUnit.value_add_digit hscale (le_refl 9)).1 hnext hfinite hgrows
        (haccUnit.add_digit_mono hcapUnit hscale hscale hle (le_refl _) hd (le_refl 9)) hds.2

/-- The weight of the first digit. -/
theorem inUnit_tenth : InUnit 0.1 := by
  have hfinite : isFinite 0.1 = true := by decide +kernel
  have hnonneg : (0 : Float) ≤ 0.1 := by decide +kernel
  have hle : (0.1 : Float) ≤ 1 := by decide +kernel
  rw [le_iff inUnit_zero.finite hfinite] at hnonneg
  exact inUnit_of_le_one hfinite (inUnit_zero.nonneg.trans hnonneg) hle

/-- **Every fraction is from zero to one.** -/
theorem inUnit_fractionValue {t : DateTime} (h : t.fraction.all isDigit = true) : InUnit t.fractionValue := by
  rw [fractionValue_eq_weighted]
  exact inUnit_weighted capped inUnit_zero.finite inUnit_tenth inUnit_zero.finite inUnit_zero.nonneg
    (le_refl _) h

/-! ## Zeros at the end -/

theorem not_isNegZero_zero : ¬ IsNegZero 0 := by
  have hzero : (0 : Float).toModel.unpack = .zero .positive := rfl
  rw [IsNegZero, hzero]
  exact nofun

theorem weighted_append (ds es : Bytes) (acc scale : Float) :
    weighted (ds ++ es) acc scale = weighted es (weighted ds acc scale) ((· / 10)^[ds.length] scale) := by
  induction ds generalizing acc scale with
  | nil => rfl
  | cons d ds ih => exact ih _ _

theorem InUnit.iterate_div_ten (h : InUnit scale) (n : Nat) : InUnit ((· / 10)^[n] scale) := by
  induction n generalizing scale with
  | zero => exact h
  | succ n ih => exact ih h.div_ten.1

theorem not_isNegZero_weighted (hacc : ¬ IsNegZero acc) (ds : Bytes) (scale : Float) :
    ¬ IsNegZero (weighted ds acc scale) := by
  induction ds generalizing acc scale with
  | nil => exact hacc
  | cons d ds ih => exact ih (add_ne_negZero hacc _) _

/-- Zeros add nothing to a sum. -/
theorem weighted_zeros (hacc : InUnit acc) (hpositive : ¬ IsNegZero acc) (hscale : InUnit scale) (n : Nat) :
    weighted (List.replicate n (byte '0')) acc scale = acc := by
  induction n generalizing scale with
  | zero => rfl
  | succ n ih =>
    have hdigit : digitValue (byte '0') = 0 := by decide
    have hsum : acc + Float.ofNat 0 * scale = acc := by
      obtain ⟨hfinite, hvalue⟩ := hacc.value_add_digit hscale (Nat.zero_le 9)
      rw [Nat.cast_zero, zero_mul, nearest_zero, add_zero, nearest_value hacc.finite] at hvalue
      exact eq_of_value_eq hfinite hacc.finite (add_ne_negZero hpositive _) hpositive hvalue
    rw [List.replicate_succ, weighted, hdigit, hsum]
    exact ih hscale.div_ten.1

/-- What the digits after a point stand for. -/
def decimals (ds : Bytes) : ℚ := digitsValue 10 ds / 10 ^ ds.length

theorem decimals_lt_one {ds : Bytes} (h : ds.all isDigit = true) : decimals ds < 1 := by
  have hlt : (digitsValue 10 ds : ℚ) < 10 ^ ds.length := by exact_mod_cast digitsValue_lt h
  rw [decimals, div_lt_one (by positivity)]
  exact hlt

theorem decimals_nonneg (ds : Bytes) : 0 ≤ decimals ds := by
  unfold decimals
  positivity

/-- Of two fractions that stand for one number the longer one has zeros at its end. -/
theorem append_zeros_of_decimals_eq {ds es : Bytes} (hds : ds.all isDigit = true)
    (hes : es.all isDigit = true) (hle : ds.length ≤ es.length) (h : decimals ds = decimals es) :
    ds ++ List.replicate (es.length - ds.length) (byte '0') = es := by
  obtain ⟨k, hk⟩ := Nat.exists_eq_add_of_le hle
  have hvalue : digitsValue 10 ds * 10 ^ k = digitsValue 10 es := by
    have hpower : (10 : ℚ) ^ es.length = 10 ^ ds.length * 10 ^ k := by rw [hk, pow_add]
    have hpos : (0 : ℚ) < 10 ^ ds.length := by positivity
    have hpos' : (0 : ℚ) < 10 ^ k := by positivity
    rw [decimals, decimals, hpower, div_eq_div_iff hpos.ne' (mul_pos hpos hpos').ne'] at h
    have hcross : (digitsValue 10 ds : ℚ) * 10 ^ k = digitsValue 10 es :=
      mul_right_cancel₀ hpos.ne' (by linarith)
    exact_mod_cast hcross
  have hzeros : (List.replicate k (byte '0')).all isDigit = true :=
    List.all_eq_true.mpr fun b hb => List.eq_of_mem_replicate hb ▸ by decide
  have hrest : es.length - ds.length = k := by omega
  rw [hrest]
  refine eq_of_digitsValue_eq ?_ hes ?_ ?_
  · rw [List.all_append, hds, hzeros, Bool.and_self]
  · rw [List.length_append, List.length_replicate, hk]
  · rw [digitsValue_append_zeros, hvalue]

/-- **Fractions that stand for one number have one sum.** -/
theorem fractionValue_congr {t t' : DateTime} (ht : t.fraction.all isDigit = true)
    (ht' : t'.fraction.all isDigit = true) (h : decimals t.fraction = decimals t'.fraction) :
    t.fractionValue = t'.fractionValue := by
  have hlonger : ∀ {t t' : DateTime}, t.fraction.all isDigit = true → t'.fraction.all isDigit = true →
      t.fraction.length ≤ t'.fraction.length → decimals t.fraction = decimals t'.fraction →
      t.fractionValue = t'.fractionValue := by
    intro t t' ht ht' hle h
    have hunit := inUnit_fractionValue ht
    rw [fractionValue_eq_weighted] at hunit ⊢
    rw [fractionValue_eq_weighted, ← append_zeros_of_decimals_eq ht ht' hle h, weighted_append]
    exact (weighted_zeros hunit (not_isNegZero_weighted not_isNegZero_zero _ _)
      (inUnit_tenth.iterate_div_ten _) _).symm
  rcases Nat.le_total t.fraction.length t'.fraction.length with hle | hle
  · exact hlonger ht ht' hle h
  · exact (hlonger ht' ht hle h.symm).symm

end Telemetry.DateTime

import Telemetry.Proofs.Numeral.Digits
import Telemetry.Proofs.Numeral.Rounding

/-!
# What the text of a double says

The text of a finite double is a spelling: a sign, digits, perhaps a fraction, perhaps an exponent.
The number that is spelled rounds to the double (`writeFinite_spelled`), in all forms: with an
exponent, and with the point among the digits, in front of them or behind them.
-/

namespace Telemetry

open Bytes Binary64

/-! ## The shortest decimal -/

namespace Binary64

namespace Decimal

/-- The number that a decimal stands for. -/
def value (d : Decimal) : ℚ := d.coefficient * (10 : ℚ) ^ d.exponent

theorem quotient_ratio (d : Decimal) : quotient d.ratio = d.value := by
  rw [ratio, quotient_scaled, value]
  rfl

theorem ratio_snd_pos (d : Decimal) : 0 < d.ratio.2 := scaled_snd_pos _ (by decide) _

/-- The decimal is not zero if its bits are not. -/
theorem coefficient_pos {d : Decimal} (h : 0 < d.bits) : 0 < d.coefficient := by
  by_contra hzero
  have hratio : d.ratio.1 = 0 := by
    rw [ratio, Nat.eq_zero_of_not_pos hzero, scaled]
    split
    · exact Nat.zero_mul _
    · rfl
  rw [bits, hratio, nearestBits, if_pos rfl] at h
  exact absurd h (Nat.lt_irrefl 0)

end Decimal

theorem exactDecimal_value (x : Finite) :
    (exactDecimal x.mantissa x.exponent).value = x.magnitude := by
  unfold exactDecimal
  split
  · next h =>
    obtain ⟨k, hk⟩ := Int.eq_ofNat_of_zero_le h
    rw [Decimal.value, Finite.magnitude, hk]
    simp
  · next h =>
    obtain ⟨k, hk⟩ := Int.eq_ofNat_of_zero_le (a := -x.exponent) (by omega)
    obtain hexp : x.exponent = -(k : Int) := by omega
    have hten : (10 : ℚ) ^ k = 5 ^ k * 2 ^ k := by
      rw [← mul_pow]
      norm_num
    have h5 : (5 : ℚ) ^ k ≠ 0 := by positivity
    have h2 : (2 : ℚ) ^ k ≠ 0 := by positivity
    rw [Decimal.value, Finite.magnitude, hk, hexp, zpow_neg, zpow_neg, zpow_natCast, zpow_natCast,
      hten]
    simp only [Nat.pow_eq, Nat.cast_mul, Nat.cast_pow, Int.toNat_natCast, Nat.cast_ofNat]
    field_simp

/-- **The shortest decimal reads back.** -/
theorem shortest_bits {x : Finite} (h : x.WF) : (shortest x).bits = x.bits := by
  unfold shortest
  rw [nearestBits_ratio h]
  dsimp only
  split
  · next d hd => simpa using List.find?_some hd
  · rw [← nearestBits_ratio h, Decimal.bits]
    refine nearestBits_congr (Decimal.ratio_snd_pos _) x.ratio_snd_pos ?_
    rw [Prod.mk.eta, Prod.mk.eta, Decimal.quotient_ratio, Finite.quotient_ratio,
      exactDecimal_value]

end Binary64

namespace Numeral

/-! ## Spellings -/

/-- The parts of a written number. -/
structure Spelling where
  negative : Bool
  whole : Bytes
  /-- The digits behind the point; there is no point without them. -/
  fraction : Bytes
  /-- The sign and the digits of the exponent. -/
  exponent : Option (Bool × Bytes)

namespace Spelling

def fractionText (s : Spelling) : Bytes :=
  if s.fraction = [] then [] else byte '.' :: s.fraction

def exponentText (s : Spelling) : Bytes :=
  match s.exponent with
  | none => []
  | some (negative, digits) => byte 'e' :: (if negative then byte '-' else byte '+') :: digits

def text (s : Spelling) : Bytes :=
  (if s.negative then [byte '-'] else []) ++ s.whole ++ s.fractionText ++ s.exponentText

/-- The exponent, if there is one. -/
def exponent? (s : Spelling) : Option Int :=
  s.exponent.map fun (negative, digits) =>
    if negative then -(digitsValue 10 digits : Int) else digitsValue 10 digits

/-- The number that is spelled. -/
def numeral (s : Spelling) : Numeral :=
  ⟨s.negative, digitsValue 10 (s.whole ++ s.fraction), 10,
    s.exponent?.getD 0 - s.fraction.length⟩

theorem two_le_base (s : Spelling) : 2 ≤ s.numeral.base := by
  change 2 ≤ 10
  decide

/-- All digits are digits, there are some where there have to be, and no zero leads others. -/
structure WF (s : Spelling) : Prop where
  whole_ne_nil : s.whole ≠ []
  whole_digits : ∀ b ∈ s.whole, isDigit b = true
  whole_head : ∀ d rest, s.whole = d :: rest → rest ≠ [] → d ≠ byte '0'
  fraction_digits : ∀ b ∈ s.fraction, isDigit b = true
  exponent_digits : ∀ e ∈ s.exponent, e.2 ≠ [] ∧ ∀ b ∈ e.2, isDigit b = true

/-- The number has a point or an exponent. -/
def isFractional (s : Spelling) : Prop := s.fraction ≠ [] ∨ s.exponent ≠ none

end Spelling

/-! ## Significant digits -/

/-- Digits without a zero at their start that stand, at an exponent, for a value. -/
structure Significant (digits : Bytes) (exponent : Int) (v : ℚ) : Prop where
  isDigit : ∀ b ∈ digits, isDigit b = true
  head : ∃ b rest, digits = b :: rest ∧ b ≠ byte '0'
  value : digitsValue 10 digits * (10 : ℚ) ^ exponent = v

/-- The significant digits are what is left of all digits without their last zeros. -/
theorem decimal_eq_significant (d : Decimal) :
    ∃ zeros : Nat, decimal d.coefficient = (significant d).1 ++ List.replicate zeros (byte '0') ∧
      (significant d).2 = d.exponent + zeros := by
  have hzeros : ∀ l : Bytes, l.takeWhile (· == byte '0') =
      List.replicate (l.takeWhile (· == byte '0')).length (byte '0') := by
    intro l
    rw [List.eq_replicate_iff]
    refine ⟨rfl, fun b hb => ?_⟩
    have hall : (l.takeWhile (· == byte '0')).all (· == byte '0') = true := List.all_takeWhile
    simpa using List.all_eq_true.mp hall b hb
  have hdrop : ∀ l : Bytes, l.drop (l.takeWhile (· == byte '0')).length =
      l.dropWhile (· == byte '0') := by
    intro l
    calc l.drop (l.takeWhile (· == byte '0')).length
        = (l.takeWhile (· == byte '0') ++ l.dropWhile (· == byte '0')).drop
            (l.takeWhile (· == byte '0')).length := by rw [List.takeWhile_append_dropWhile]
      _ = l.dropWhile (· == byte '0') := List.drop_left
  refine ⟨_, ?_, rfl⟩
  rw [significant]
  dsimp only
  rw [hdrop, ← List.reverse_replicate, ← hzeros, ← List.reverse_append,
    List.takeWhile_append_dropWhile, List.reverse_reverse]

theorem significant_spec {d : Decimal} (hc : 0 < d.coefficient) :
    Significant (significant d).1 (significant d).2 d.value := by
  obtain ⟨zeros, hdigits, hexp⟩ := decimal_eq_significant d
  have hvalue := digitsValue_decimal d.coefficient
  rw [hdigits, digitsValue_append_zeros] at hvalue
  obtain ⟨b, rest, hb, hne⟩ := head_decimal hc
  refine ⟨fun c hmem => ?_, ?_, ?_⟩
  · refine isDigit_of_mem_decimal (n := d.coefficient) ?_
    rw [hdigits]
    exact List.mem_append_left _ hmem
  · cases hs : (significant d).1 with
    | nil =>
      rw [hs] at hvalue
      change 0 * _ = d.coefficient at hvalue
      omega
    | cons c more =>
      rw [hdigits, hs] at hb
      obtain ⟨rfl, -⟩ := List.cons.inj hb
      exact ⟨c, more, rfl, hne⟩
  · rw [Decimal.value, ← hvalue, hexp, zpow_add₀ (by norm_num), zpow_natCast, Nat.cast_mul,
      Nat.cast_pow, Nat.cast_ofNat]
    ring

/-! ## The forms -/

theorem digitsValue_twoDigits (n : Nat) : digitsValue 10 (twoDigits n) = n := by
  unfold twoDigits
  split
  · have hzero : digitsValue 10 [byte '0'] = 0 := by decide
    rw [← List.singleton_append, digitsValue_append, digitsValue_decimal, hzero, Nat.zero_mul,
      Nat.zero_add]
  · exact digitsValue_decimal n

theorem isDigit_of_mem_twoDigits {n : Nat} {b : UInt8} (h : b ∈ twoDigits n) :
    isDigit b = true := by
  unfold twoDigits at h
  split at h
  · rcases List.mem_cons.mp h with rfl | h
    · decide
    · exact isDigit_of_mem_decimal h
  · exact isDigit_of_mem_decimal h

theorem twoDigits_ne_nil (n : Nat) : twoDigits n ≠ [] := by
  unfold twoDigits
  split
  · exact List.cons_ne_nil _ _
  · exact decimal_ne_nil n

variable {digits : Bytes} {exponent : Int} {v : ℚ}

/-- What is asked of a spelling of a value. -/
structure Spells (s : Spelling) (negative : Bool) (v : ℚ) (text : Bytes) : Prop where
  wf : s.WF
  fractional : s.isFractional
  sign : s.negative = negative
  value : s.numeral.value = v
  text : s.text = (if negative then [byte '-'] else []) ++ text

theorem scientific_spelled (h : Significant digits exponent v) (negative : Bool) :
    ∃ s, Spells s negative v (scientific digits exponent) := by
  obtain ⟨hdigit, ⟨d, more, rfl, -⟩, hvalue⟩ := h
  obtain ⟨e, he⟩ : ∃ e : Int, e = exponent + (d :: more).length - 1 := ⟨_, rfl⟩
  refine ⟨⟨negative, [d], more, some (decide (e < 0), twoDigits e.natAbs)⟩, ?_, ?_, rfl, ?_, ?_⟩
  · refine ⟨List.cons_ne_nil _ _, fun b hb => ?_, fun b rest hb hrest => ?_, fun b hb => ?_, ?_⟩
    · exact hdigit b (List.mem_cons.mpr (Or.inl (List.mem_singleton.mp hb)))
    · exact absurd (List.cons.inj hb).2.symm hrest
    · exact hdigit b (List.mem_cons_of_mem _ hb)
    · rintro _ ⟨rfl⟩
      exact ⟨twoDigits_ne_nil _, fun b hb => isDigit_of_mem_twoDigits hb⟩
  · exact Or.inr (Option.some_ne_none _)
  · have hexp : (Spelling.exponent? ⟨negative, [d], more,
        some (decide (e < 0), twoDigits e.natAbs)⟩).getD 0 = e := by
      simp only [Spelling.exponent?, Option.map_some, Option.getD_some, digitsValue_twoDigits,
        decide_eq_true_eq]
      split <;> omega
    have hshift : e - (more.length : Int) = exponent := by
      rw [he, List.length_cons]
      omega
    rw [Spelling.numeral, hexp, Numeral.value]
    dsimp only
    rw [hshift, ← hvalue]
    rfl
  · simp only [Spelling.text, Spelling.fractionText, Spelling.exponentText, scientific, ← he,
      decide_eq_true_eq]
    cases more <;> simp

/-- The point stands among the digits. -/
theorem point_among_spelled {places : Nat} (h : Significant digits (-(places : Int)) v)
    (hpos : 0 < places) (hlen : places < digits.length) (negative : Bool) :
    ∃ s, Spells s negative v (digits.take (digits.length - places) ++ [byte '.'] ++
      digits.drop (digits.length - places)) := by
  obtain ⟨hdigit, ⟨d, more, hd, hne⟩, hvalue⟩ := h
  have hdrop : digits.drop (digits.length - places) ≠ [] := by
    intro hnil
    have hlength := congrArg List.length hnil
    rw [List.length_drop, List.length_nil] at hlength
    omega
  obtain ⟨rest, hrest⟩ : ∃ rest, digits.take (digits.length - places) = d :: rest := by
    obtain ⟨k, hk⟩ : ∃ k, digits.length - places = k + 1 := ⟨digits.length - places - 1, by omega⟩
    exact ⟨more.take k, by rw [hk, hd, List.take_succ_cons]⟩
  refine ⟨⟨negative, digits.take (digits.length - places),
    digits.drop (digits.length - places), none⟩, ?_, Or.inl hdrop, rfl, ?_, ?_⟩
  · refine ⟨?_, fun b hb => hdigit b (List.mem_of_mem_take hb), fun b more' hb _ => ?_,
      fun b hb => hdigit b (List.mem_of_mem_drop hb), fun e he => nomatch he⟩
    · dsimp only
      rw [hrest]
      exact List.cons_ne_nil _ _
    · dsimp only at hb
      rw [hrest] at hb
      rw [← (List.cons.inj hb).1]
      exact hne
  · simp only [Spelling.numeral, Numeral.value, Spelling.exponent?, Option.map_none,
      Option.getD_none, List.take_append_drop, List.length_drop]
    rw [← hvalue]
    congr 2
    omega
  · simp [Spelling.text, Spelling.fractionText, Spelling.exponentText, hdrop]

/-- Zeros stand between the point and the digits. -/
theorem point_before_spelled {places : Nat} (h : Significant digits (-(places : Int)) v)
    (hlen : digits.length ≤ places) (negative : Bool) :
    ∃ s, Spells s negative v
      (ascii "0." ++ List.replicate (places - digits.length) (byte '0') ++ digits) := by
  obtain ⟨hdigit, ⟨d, more, hd, -⟩, hvalue⟩ := h
  have hfraction : List.replicate (places - digits.length) (byte '0') ++ digits ≠ [] := by
    rw [hd]
    simp
  refine ⟨⟨negative, [byte '0'], List.replicate (places - digits.length) (byte '0') ++ digits,
    none⟩, ?_, Or.inl hfraction, rfl, ?_, ?_⟩
  · refine ⟨List.cons_ne_nil _ _, fun b hb => ?_, fun b rest hb hrest => ?_, fun b hb => ?_,
      fun e he => nomatch he⟩
    · rw [List.mem_singleton.mp hb]
      decide
    · exact absurd (List.cons.inj hb).2.symm hrest
    · rcases List.mem_append.mp hb with hb | hb
      · rw [(List.mem_replicate.mp hb).2]
        decide
      · exact hdigit b hb
  · have hzeros : digitsValue 10 ([byte '0'] ++
        (List.replicate (places - digits.length) (byte '0') ++ digits)) =
          digitsValue 10 digits := by
      have hzero : digitsValue 10 [byte '0'] = 0 := by decide
      rw [digitsValue_append, digitsValue_append, digitsValue_zeros, hzero, Nat.zero_mul,
        Nat.zero_mul, Nat.zero_add, Nat.zero_add]
    simp only [Spelling.numeral, Numeral.value, Spelling.exponent?, Option.map_none,
      Option.getD_none, hzeros, List.length_append, List.length_replicate]
    rw [← hvalue]
    congr 2
    omega
  · simp [Spelling.text, Spelling.fractionText, Spelling.exponentText, hfraction, ascii]

/-- The digits are those of a whole number, and a zero stands behind the point. -/
theorem whole_spelled {whole : Bytes} (hne : whole ≠ []) (hdigit : ∀ b ∈ whole, isDigit b = true)
    (hhead : ∀ d rest, whole = d :: rest → rest ≠ [] → d ≠ byte '0') (negative : Bool) :
    ∃ s, Spells s negative (digitsValue 10 whole) (whole ++ ascii ".0") := by
  refine ⟨⟨negative, whole, [byte '0'], none⟩, ?_, Or.inl (List.cons_ne_nil _ _), rfl, ?_, ?_⟩
  · refine ⟨hne, hdigit, hhead, fun b hb => ?_, fun e he => nomatch he⟩
    rw [List.mem_singleton.mp hb]
    decide
  · have hzero : digitsValue 10 (whole ++ [byte '0']) = digitsValue 10 whole * 10 ^ 1 :=
      digitsValue_append_zeros 10 whole 1
    simp only [Spelling.numeral, Numeral.value, Spelling.exponent?, Option.map_none,
      Option.getD_none, hzero, List.length_singleton]
    norm_num
    ring
  · simp [Spelling.text, Spelling.fractionText, Spelling.exponentText, ascii]

/-- Zeros stand between the digits and the point. -/
theorem point_behind_spelled {places : Nat} (h : Significant digits places v) (negative : Bool) :
    ∃ s, Spells s negative v (digits ++ List.replicate places (byte '0') ++ ascii ".0") := by
  obtain ⟨hdigit, ⟨d, more, hd, hne⟩, hvalue⟩ := h
  have hwhole : v = digitsValue 10 (digits ++ List.replicate places (byte '0')) := by
    rw [digitsValue_append_zeros, ← hvalue, zpow_natCast]
    norm_num
  rw [hwhole]
  refine whole_spelled (by simp [hd]) (fun b hb => ?_) (fun b rest hb _ => ?_) negative
  · rcases List.mem_append.mp hb with hb | hb
    · exact hdigit b hb
    · rw [(List.mem_replicate.mp hb).2]
      decide
  · rw [hd] at hb
    rw [← (List.cons.inj hb).1]
    exact hne

theorem positional_spelled (h : Significant digits exponent v) (negative : Bool) :
    ∃ s, Spells s negative v (positional digits exponent) := by
  rcases lt_or_ge exponent 0 with hneg | hnonneg
  · obtain ⟨places, hplaces⟩ := Int.eq_ofNat_of_zero_le (a := -exponent) (by omega)
    obtain rfl : exponent = -(places : Int) := by omega
    rw [positional, if_neg (by omega), hplaces]
    change ∃ s, Spells s negative v (if digits.length ≤ places then _ else _)
    split
    · next hlen => exact point_before_spelled h hlen negative
    · next hlen => exact point_among_spelled h (by omega) (Nat.lt_of_not_le hlen) negative
  · obtain ⟨places, rfl⟩ := Int.eq_ofNat_of_zero_le hnonneg
    rw [positional, if_pos hnonneg]
    exact point_behind_spelled h negative

/-! ## The text of a double -/

theorem shortest_coefficient_pos {x : Finite} (hx : x.WF) (hpos : 0 < x.mantissa) :
    0 < (shortest x).coefficient := by
  refine Decimal.coefficient_pos ?_
  rw [shortest_bits hx]
  exact Finite.bits_pos hpos

/-- **The text of a finite double spells a number that rounds to it.** -/
theorem writeFinite_spelled {x : Finite} (hx : x.WF) :
    ∃ s : Spelling, s.WF ∧ s.isFractional ∧ s.negative = x.negative ∧ s.text = writeFinite x ∧
      s.numeral.bits = x.bits := by
  unfold writeFinite
  dsimp only
  split
  · next hzero =>
    obtain ⟨s, hs⟩ := whole_spelled (List.cons_ne_nil (byte '0') [])
      (List.forall_mem_singleton.mpr (by decide))
      (fun _ _ h hrest => absurd (List.cons.inj h).2.symm hrest) x.negative
    refine ⟨s, hs.wf, hs.fractional, hs.sign, hs.text, ?_⟩
    refine bits_of_magnitude s.two_le_base hx ?_
    rw [hs.value, Finite.magnitude, hzero]
    simp [show digitsValue 10 [byte '0'] = 0 by decide]
  · next hzero =>
    have hbits := shortest_bits hx
    have hsig := significant_spec (shortest_coefficient_pos hx (Nat.pos_of_ne_zero hzero))
    have hround : ∀ s : Spelling, s.numeral.value = (shortest x).value → s.numeral.bits = x.bits := by
      intro s hs
      rw [← hbits, Decimal.bits]
      refine bits_eq_nearestBits s.two_le_base (Decimal.ratio_snd_pos _) ?_
      rw [hs, Prod.mk.eta, Decimal.quotient_ratio]
    split
    · obtain ⟨s, hs⟩ := positional_spelled hsig x.negative
      exact ⟨s, hs.wf, hs.fractional, hs.sign, hs.text, hround s hs.value⟩
    · obtain ⟨s, hs⟩ := scientific_spelled hsig x.negative
      exact ⟨s, hs.wf, hs.fractional, hs.sign, hs.text, hround s hs.value⟩

example : write? (ofWord 1700000000) = some (ascii "1700000000.0") := by decide +kernel

end Numeral

end Telemetry

import Telemetry.Proofs.Calendar.Gregorian

/-!
# Days by machine words

Days can be counted with a division that rounds toward zero and with unsigned words for what is smaller
than an era of 400 years.  No year makes a difference (`daysByWords_eq`): the year is moved before it is
divided, and the one word that wraps, the month that is moved back to March, wraps to the right place.
-/

namespace Telemetry

/-- The days from 1970-01-01 with a division that rounds toward zero and with unsigned words of 32 bits
for all that is smaller than an era. -/
def daysByWords (year : Int) (month day : UInt32) : Int :=
  let y := if month ≤ 2 then year - 1 else year
  let era := (if 0 ≤ y then y else y - 399).tdiv 400
  let yearOfEra := UInt32.ofInt (y - era * 400)
  let dayOfYear := (153 * (month + if 2 < month then -3 else 9) + 2) / 5 + day - 1
  let dayOfEra := yearOfEra * 365 + yearOfEra / 4 - yearOfEra / 100 + dayOfYear
  era * 146097 + dayOfEra.toNat - 719468

/-- The division that rounds toward zero finds the era of a negative year too. -/
theorem tdiv_era (y : Int) : (if 0 ≤ y then y else y - 399).tdiv 400 = y / 400 := by
  split
  · next h => exact Int.tdiv_eq_ediv_of_nonneg h
  · next h =>
    rw [Int.tdiv_eq_ediv, Int.sign_eq_one_of_pos (by decide)]
    split <;> omega

/-- The month is moved back to March modulo `2 ^ 32`. -/
theorem toNat_march {month : UInt32} (hpos : 1 ≤ month.toNat) (hle : month.toNat ≤ 12) :
    (month + if 2 < month then -3 else 9).toNat = marchMonth month.toNat := by
  have hlt : 2 < month ↔ 2 < month.toNat := UInt32.lt_iff_toNat_lt
  have hback : (-3 : UInt32).toNat = 4294967293 := rfl
  have hforth : (9 : UInt32).toNat = 9 := rfl
  unfold marchMonth
  rw [UInt32.toNat_add]
  split
  · next h =>
    rw [hlt] at h
    omega
  · next h =>
    rw [hlt] at h
    omega

theorem toNat_dayOfYear {month day : UInt32} (hpos : 1 ≤ month.toNat) (hle : month.toNat ≤ 12)
    (hday : 1 ≤ day.toNat) (hday' : day.toNat ≤ 31) :
    ((153 * (month + if 2 < month then -3 else 9) + 2) / 5 + day - 1).toNat =
      (153 * marchMonth month.toNat + 2) / 5 + day.toNat - 1 := by
  have hshift := toNat_march hpos hle
  have hmarch : marchMonth month.toNat < 12 := Nat.mod_lt _ (by decide)
  generalize month + _ = m at *
  have hproduct : (153 * m).toNat = 153 * marchMonth month.toNat := by
    rw [UInt32.toNat_mul, hshift, Nat.mod_eq_of_lt]
    · rfl
    · change 153 * _ < _
      omega
  have hsum : (153 * m + 2).toNat = 153 * marchMonth month.toNat + 2 := by
    rw [UInt32.toNat_add, hproduct, Nat.mod_eq_of_lt]
    · rfl
    · change _ + 2 < _
      omega
  have hdays : ((153 * m + 2) / 5 + day).toNat = (153 * marchMonth month.toNat + 2) / 5 + day.toNat := by
    rw [UInt32.toNat_add, UInt32.toNat_div, hsum, Nat.mod_eq_of_lt]
    · rfl
    · change _ / 5 + _ < _
      omega
  rw [UInt32.toNat_sub_of_le, hdays]
  · rfl
  · rw [UInt32.le_iff_toNat_le, hdays]
    change 1 ≤ _
    omega

theorem toNat_dayOfEra {yearOfEra dayOfYear : UInt32} (hyear : yearOfEra.toNat < 400)
    (hday : dayOfYear.toNat < 400) :
    (yearOfEra * 365 + yearOfEra / 4 - yearOfEra / 100 + dayOfYear).toNat =
      yearOfEra.toNat * 365 + yearOfEra.toNat / 4 - yearOfEra.toNat / 100 + dayOfYear.toNat := by
  have hproduct : (yearOfEra * 365).toNat = yearOfEra.toNat * 365 := by
    rw [UInt32.toNat_mul, Nat.mod_eq_of_lt]
    · rfl
    · change _ * 365 < _
      omega
  have hfourth : (yearOfEra / 4).toNat = yearOfEra.toNat / 4 := UInt32.toNat_div ..
  have hcentury : (yearOfEra / 100).toNat = yearOfEra.toNat / 100 := UInt32.toNat_div ..
  have hsum : (yearOfEra * 365 + yearOfEra / 4).toNat = yearOfEra.toNat * 365 + yearOfEra.toNat / 4 := by
    rw [UInt32.toNat_add, hproduct, hfourth, Nat.mod_eq_of_lt (by omega)]
  have hdifference : (yearOfEra * 365 + yearOfEra / 4 - yearOfEra / 100).toNat =
      yearOfEra.toNat * 365 + yearOfEra.toNat / 4 - yearOfEra.toNat / 100 := by
    rw [UInt32.toNat_sub_of_le, hsum, hcentury]
    rw [UInt32.le_iff_toNat_le, hsum, hcentury]
    omega
  rw [UInt32.toNat_add, hdifference, Nat.mod_eq_of_lt (by omega)]

/-- **Machine words are large enough for the days of every date.** -/
theorem daysByWords_eq (d : Date) :
    daysByWords d.year (UInt32.ofNat d.month) (UInt32.ofNat d.day) = d.days := by
  have hmonth : (UInt32.ofNat d.month).toNat = d.month := by
    rw [UInt32.toNat_ofNat', Nat.mod_eq_of_lt (Nat.lt_of_le_of_lt d.month_le (by decide))]
  have hday : (UInt32.ofNat d.day).toNat = d.day := by
    rw [UInt32.toNat_ofNat', Nat.mod_eq_of_lt (Nat.lt_of_le_of_lt d.day_le_31 (by decide))]
  have hmonth_pos := d.month_pos
  have hmonth_le := d.month_le
  have hday_pos := d.day_pos
  have hday_le := d.day_le_31
  have hbefore : UInt32.ofNat d.month ≤ 2 ↔ d.month ≤ 2 := by
    rw [UInt32.le_iff_toNat_le, hmonth]
    rfl
  have hoffset := toNat_dayOfYear (hmonth.symm ▸ hmonth_pos) (hmonth.symm ▸ hmonth_le)
    (hday.symm ▸ hday_pos) (hday.symm ▸ hday_le)
  rw [hmonth, hday] at hoffset
  unfold daysByWords Date.days daysFromCivil
  simp only [hbefore, tdiv_era]
  generalize (if d.month ≤ 2 then d.year - 1 else d.year) = y
  obtain ⟨n, hn⟩ := Int.eq_ofNat_of_zero_le (Int.emod_nonneg y (show (400 : Int) ≠ 0 by decide))
  have hrest : y - y / 400 * 400 = n := by omega
  have hlt : n < 400 := by omega
  have hyear : (UInt32.ofInt (y - y / 400 * 400)).toNat = n := by
    rw [hrest, UInt32.ofInt, UInt32.toNat_ofNat']
    omega
  have hmarch : marchMonth d.month < 12 := Nat.mod_lt _ (by decide)
  rw [toNat_dayOfEra (hyear.symm ▸ hlt) (by omega), hyear, hoffset, hn]
  unfold marchMonth
  omega

end Telemetry

import Telemetry.Proofs.Calendar.Fraction
import Telemetry.Proofs.Calendar.Words
import Telemetry.Proofs.Calendar.Written

/-!
# The seconds of written times

The fields of a written time have a fixed number of digits, so its whole seconds are few and are exact as a
double; only its fraction is rounded (`Accepted.value_toFloat`).  Times of one instant have one double
(`Accepted.toFloat_congr`).

A day is accepted up to the 31st whatever the month.  If the month has no such day, the time stands for a day
of the next month (`StandsFor`), and no two times of different days are taken for each other.
-/

namespace Telemetry.DateTime

open Bytes Binary64

variable {s s' : Bytes} {t t' : DateTime} {d d' : Date}

/-! ## The ranges of the fields -/

/-- A text in the grammar of times, with its fields in their ranges. -/
structure Accepted (s : Bytes) (t : DateTime) : Prop where
  spelled : Spelled s t
  inRange : t.inRange = true

theorem parse?_eq_some_iff_accepted : parse? s = some t ↔ Accepted s t :=
  parse?_eq_some_iff.trans ⟨fun h => ⟨h.1, h.2⟩, fun h => ⟨h.1, h.2⟩⟩

theorem Field.lt {n v : Nat} (h : Field n s v) : v < 10 ^ n := by
  rw [← h.value, ← h.length]
  exact digitsValue_lt h.digits

theorem Zone.natAbs_lt {offset : Int} (h : Zone s offset) : offset.natAbs < 400000 := by
  cases h with
  | unsaid => decide
  | utc => decide
  | ahead hours minutes =>
    have hh := hours.lt
    have hm := minutes.lt
    omega
  | behind hours minutes =>
    have hh := hours.lt
    have hm := minutes.lt
    omega

theorem FractionPart.all_isDigit {ds : Bytes} (h : FractionPart s ds) : ds.all isDigit = true := by
  cases h with
  | none => rfl
  | digits _ hdigits => exact hdigits

/-- The ranges of a month, a day and a time of day. -/
theorem inRange_iff : t.inRange = true ↔
    (1 ≤ t.month ∧ t.month ≤ 12) ∧ (1 ≤ t.day ∧ t.day ≤ 31) ∧ t.hour ≤ 23 ∧ t.minute ≤ 59 ∧
      t.second ≤ 60 := by
  simp only [DateTime.inRange, Bool.and_eq_true, decide_eq_true_eq, and_assoc]

namespace Accepted

theorem natAbs_seconds_lt (h : Accepted s t) : t.seconds.natAbs < 2 ^ 40 := by
  obtain ⟨⟨hyear, -, -, -, -, -, -, -, hzone⟩, hrange⟩ := h
  have hyear := hyear.lt
  have hzone := hzone.natAbs_lt
  rw [inRange_iff] at hrange
  unfold seconds daysFromCivil
  dsimp only
  split <;> omega

theorem all_isDigit (h : Accepted s t) : t.fraction.all isDigit = true := by
  obtain ⟨⟨-, -, -, -, -, -, -, hfraction, -⟩, -⟩ := h
  exact hfraction.all_isDigit

/-! ## Doubles -/

theorem value_ofInt_seconds (h : Accepted s t) :
    isFinite (Float.ofInt t.seconds) = true ∧ value (Float.ofInt t.seconds) = t.seconds :=
  value_ofInt (h.natAbs_seconds_lt.trans (by decide))

theorem abs_sum_le (h : Accepted s t) :
    |value (Float.ofInt t.seconds) + value t.fractionValue| ≤ 2 ^ 1023 := by
  obtain ⟨-, hnonneg, hone⟩ := inUnit_fractionValue h.all_isDigit
  have hseconds : |(t.seconds : ℚ)| ≤ 2 ^ 40 := by
    have hlt := h.natAbs_seconds_lt
    rw [abs_le]
    constructor <;> norm_cast <;> omega
  have hpower : (2 : ℚ) ^ 40 + 1 ≤ 2 ^ 41 := by norm_num
  rw [h.value_ofInt_seconds.2]
  calc |(t.seconds : ℚ) + value t.fractionValue| ≤ |(t.seconds : ℚ)| + |value t.fractionValue| :=
    abs_add_le _ _
    _ ≤ 2 ^ 40 + 1 := add_le_add hseconds (by rwa [abs_of_nonneg hnonneg])
    _ ≤ 2 ^ 1023 := hpower.trans (pow_le_pow_right₀ one_le_two (by decide))

/-- **A time is a finite double, the one nearest to its whole seconds and its fraction.** -/
theorem value_toFloat (h : Accepted s t) :
    isFinite t.toFloat = true ∧ value t.toFloat = nearest (t.seconds + value t.fractionValue) := by
  have hunit := inUnit_fractionValue h.all_isDigit
  have hsum := value_add h.value_ofInt_seconds.1 hunit.finite h.abs_sum_le
  rwa [h.value_ofInt_seconds.2] at hsum

/-- It is negative exactly if whole seconds and fraction are. -/
theorem value_toFloat_neg_iff (h : Accepted s t) :
    value t.toFloat < 0 ↔ t.seconds + value t.fractionValue < 0 := by
  have hunit := inUnit_fractionValue h.all_isDigit
  have hsign := value_add_neg_iff h.value_ofInt_seconds.1 hunit.finite h.abs_sum_le
  rwa [h.value_ofInt_seconds.2] at hsign

theorem nearest_seconds (h : Accepted s t) {i : Int} (hi : i.natAbs ≤ 1) :
    nearest (t.seconds + i : Int) = (t.seconds + i : Int) := by
  have hlt := h.natAbs_seconds_lt
  exact nearest_intCast (by omega)

/-- Rounding does not move a time out of its second. -/
theorem value_toFloat_bounds (h : Accepted s t) :
    (t.seconds : ℚ) ≤ value t.toFloat ∧ value t.toFloat ≤ t.seconds + 1 := by
  obtain ⟨-, hnonneg, hone⟩ := inUnit_fractionValue h.all_isDigit
  have hlow := nearest_mono (le_add_of_nonneg_right (a := (t.seconds : ℚ)) hnonneg)
  have hhigh := nearest_mono (add_le_add_right hone (t.seconds : ℚ))
  have hround := h.nearest_seconds (i := 0) (by decide)
  have hround' := h.nearest_seconds (i := 1) (by decide)
  push_cast at hround hround'
  rw [add_zero] at hround
  rw [← h.value_toFloat.2] at hlow hhigh
  exact ⟨hround ▸ hlow, hhigh.trans_eq hround'⟩

/-- Without a fraction nothing is rounded. -/
theorem value_toFloat_of_no_fraction (h : Accepted s t) (hfraction : t.fraction = []) :
    value t.toFloat = t.seconds := by
  have hzero : t.fractionValue = 0 := by
    rw [fractionValue_eq_weighted, hfraction]
    rfl
  have hround := h.nearest_seconds (i := 0) (by decide)
  rw [Int.add_zero] at hround
  rw [h.value_toFloat.2, hzero, value_zero.2, add_zero, hround]

end Accepted

/-! ## Instants -/

/-- The instant that a time is, without any rounding. -/
def instant (t : DateTime) : ℚ := t.seconds + decimals t.fraction

namespace Accepted

theorem floor_instant (h : Accepted s t) : ⌊t.instant⌋ = t.seconds := by
  rw [Int.floor_eq_iff]
  exact ⟨le_add_of_nonneg_right (decimals_nonneg _),
    (add_lt_add_iff_left _).mpr (decimals_lt_one h.all_isDigit)⟩

/-- **Times of one instant are one double.** -/
theorem toFloat_congr (h : Accepted s t) (h' : Accepted s' t') (heq : t.instant = t'.instant) :
    t.toFloat = t'.toFloat := by
  have hseconds : t.seconds = t'.seconds := by rw [← h.floor_instant, heq, h'.floor_instant]
  have hdecimals : decimals t.fraction = decimals t'.fraction := by
    unfold instant at heq
    rw [hseconds] at heq
    exact add_left_cancel heq
  rw [toFloat, toFloat, hseconds, fractionValue_congr h.all_isDigit h'.all_isDigit hdecimals]

end Accepted

/-! ## Dates -/

/-- The date has the numbers that are written. -/
structure Names (t : DateTime) (d : Date) : Prop where
  year : d.year = t.year
  month : d.month = t.month
  day : d.day = t.day

/-- The date that a time stands for: the one that it names or, if its month has no such day, the day of the
next month that comes as many days after the last one. -/
inductive StandsFor (t : DateTime) (d : Date) : Prop
  | named (h : t.Names d)
  | overrun (year : d.year = t.year) (month : d.month = t.month + 1)
      (day : d.day + monthLength t.year t.month = t.day)

/-- A day behind the last one of its month is counted as one of the next month. -/
theorem daysFromCivil_overrun {year : Int} {month day : Nat} (hmonth : 1 ≤ month) (hlt : month + 1 ≤ 12)
    (hday : 1 ≤ day) : daysFromCivil year month (day + monthLength year month) =
      daysFromCivil year (month + 1) day := by
  have hfirst := @Date.daysFromCivil_first_succ year _ hmonth hlt
  have hlength := one_le_monthLength year month
  rw [daysFromCivil_eq _ _ (by omega), daysFromCivil_eq _ _ (by omega)] at hfirst ⊢
  push_cast at hfirst ⊢
  omega

theorem StandsFor.days (h : t.StandsFor d) (hmonth : 1 ≤ t.month) :
    d.days = daysFromCivil t.year t.month t.day := by
  unfold Date.days
  cases h with
  | named h => rw [h.year, h.month, h.day]
  | overrun year month day =>
    have hle := d.month_le
    rw [month] at hle
    rw [← day, daysFromCivil_overrun hmonth hle d.day_pos, year, month]

/-- A time names a date exactly if its month has the day. -/
theorem Accepted.exists_named_iff (h : Accepted s t) :
    (∃ d : Date, t.Names d) ↔ t.day ≤ monthLength t.year t.month := by
  obtain ⟨⟨hmonth, hmonth'⟩, ⟨hday, -⟩, -⟩ := inRange_iff.mp h.inRange
  constructor
  · rintro ⟨d, hnames⟩
    rw [← hnames.year, ← hnames.month, ← hnames.day]
    exact d.day_le
  · exact fun hle => ⟨⟨t.year, t.month, t.day, hmonth, hmonth', hday, hle⟩, ⟨rfl, rfl, rfl⟩⟩

theorem Accepted.exists_date (h : Accepted s t) : ∃ d : Date, t.StandsFor d := by
  obtain ⟨⟨hmonth, hmonth'⟩, ⟨hday, hday'⟩, -⟩ := inRange_iff.mp h.inRange
  by_cases hnamed : t.day ≤ monthLength t.year t.month
  · obtain ⟨d, hd⟩ := h.exists_named_iff.mpr hnamed
    exact ⟨d, .named hd⟩
  · have hlt : t.month + 1 ≤ 12 := by
      by_contra hlast
      have hdecember : t.month = 12 := by omega
      have hlength : monthLength t.year 12 = 31 := rfl
      rw [hdecember] at hnamed
      omega
    have hrest : t.day - monthLength t.year t.month ≤ monthLength t.year (t.month + 1) := by
      have hlength := le_monthLength t.year t.month
      have hlength' := le_monthLength t.year (t.month + 1)
      omega
    exact ⟨⟨t.year, t.month + 1, t.day - monthLength t.year t.month, by omega, hlt, by omega, hrest⟩,
      .overrun rfl rfl (by dsimp only; omega)⟩

theorem Accepted.date_unique (h : Accepted s t) (hd : t.StandsFor d) (hd' : t.StandsFor d') : d = d' := by
  have hmonth := (inRange_iff.mp h.inRange).1.1
  exact Date.bijective_days.injective ((hd.days hmonth).trans (hd'.days hmonth).symm)

/-- **Times of different days are never taken for each other.** -/
theorem Accepted.days_eq_of_value_eq (h : Accepted s t) (h' : Accepted s' t') (hour : t.hour = t'.hour)
    (minute : t.minute = t'.minute) (second : t.second = t'.second) (offset : t.offset = t'.offset)
    (hvalue : value t.toFloat = value t'.toFloat) :
    daysFromCivil t.year t.month t.day = daysFromCivil t'.year t'.month t'.day := by
  -- the doubles are less than a second from the whole seconds, and different days are a day apart
  obtain ⟨hlow, hhigh⟩ := h.value_toFloat_bounds
  obtain ⟨hlow', hhigh'⟩ := h'.value_toFloat_bounds
  rw [hvalue] at hlow hhigh
  have hnear : t.seconds ≤ t'.seconds + 1 := by exact_mod_cast hlow.trans hhigh'
  have hnear' : t'.seconds ≤ t.seconds + 1 := by exact_mod_cast hlow'.trans hhigh
  unfold seconds at hnear hnear'
  rw [hour, minute, second, offset] at hnear hnear'
  omega

/-! ## Texts -/

theorem parseRfc3339?_eq_some_iff {x : Float} :
    parseRfc3339? s = some x ↔ ∃ t, Accepted s t ∧ t.toFloat = x := by
  simp only [parseRfc3339?, Option.map_eq_some_iff, parse?_eq_some_iff_accepted]

theorem Accepted.parseRfc3339?_eq (h : Accepted s t) : parseRfc3339? s = some t.toFloat :=
  parseRfc3339?_eq_some_iff.mpr ⟨t, h, rfl⟩

/-- The whole seconds of a date and a time of day. -/
theorem Names.seconds_eq (h : t.Names d) :
    t.seconds = 86400 * d.days + 3600 * t.hour + 60 * t.minute + t.second - t.offset := by
  have hdays := (StandsFor.named h).days (h.month ▸ d.month_pos)
  rw [seconds, ← hdays]
  ring

/-- **The seconds of a text are those of the calendar.**  Days are numbered from 1970-01-01 one by
one, without a gap and in their order, with words of 32 bits as with whole numbers.  A text without
a fraction whose date exists gives its seconds exactly, and texts of one instant give one double. -/
theorem seconds_calendar :
    (∀ d : Date, daysByWords d.year (UInt32.ofNat d.month) (UInt32.ofNat d.day) = d.days) ∧
    (∀ d : Date, d.next.days = d.days + 1) ∧ Date.epoch.days = 0 ∧
    StrictMono Date.days ∧ Function.Bijective Date.days ∧
    (∀ s, (parseRfc3339? s).isSome = true ↔ ∃ t, Accepted s t) ∧
    (∀ s t (d : Date), Accepted s t → t.Names d → t.fraction = [] →
      ∃ x, parseRfc3339? s = some x ∧ isFinite x = true ∧
        value x = (86400 * d.days + 3600 * t.hour + 60 * t.minute + t.second - t.offset : Int)) ∧
    (∀ s s' t t', Accepted s t → Accepted s' t' → t.instant = t'.instant →
      parseRfc3339? s = parseRfc3339? s') := by
  refine ⟨daysByWords_eq, Date.days_next, Date.days_epoch, Date.strictMono_days, Date.bijective_days,
    fun s => ?_, fun s t d h hnames hfraction => ?_, fun s s' t t' h h' heq => ?_⟩
  · rw [Option.isSome_iff_exists]
    simp only [parseRfc3339?_eq_some_iff]
    exact ⟨fun ⟨_, t, h, _⟩ => ⟨t, h⟩, fun ⟨t, h⟩ => ⟨t.toFloat, t, h, rfl⟩⟩
  · refine ⟨t.toFloat, h.parseRfc3339?_eq, h.value_toFloat.1, ?_⟩
    rw [h.value_toFloat_of_no_fraction hfraction, hnames.seconds_eq]
  · rw [h.parseRfc3339?_eq, h'.parseRfc3339?_eq, h.toFloat_congr h' heq]

theorem accepted_of_parse? (h : parse? s = some t) : Accepted s t := parse?_eq_some_iff_accepted.mp h

/-- The last second of a leap year, written ahead of UTC; and one instant in two zones. -/
theorem seconds_calendar_new_year :
    (∃ x, parseRfc3339? (ascii "2000-12-31T23:59:59+01:00") = some x ∧ value x = 978303599) ∧
    (parseRfc3339? (ascii "2001-01-01T00:00:00.50+05:30")).isSome = true ∧
    parseRfc3339? (ascii "2001-01-01T00:00:00.50+05:30") =
      parseRfc3339? (ascii "2000-12-31T18:30:00.5Z") := by
  obtain ⟨-, -, -, -, -, haccepted, hexact, hinstant⟩ := seconds_calendar
  have hyear : Accepted (ascii "2000-12-31T23:59:59+01:00") ⟨2000, 12, 31, 23, 59, 59, [], 3600⟩ :=
    accepted_of_parse? (by decide +kernel)
  have heast : Accepted (ascii "2001-01-01T00:00:00.50+05:30") ⟨2001, 1, 1, 0, 0, 0, ascii "50", 19800⟩ :=
    accepted_of_parse? (by decide +kernel)
  have hutc : Accepted (ascii "2000-12-31T18:30:00.5Z") ⟨2000, 12, 31, 18, 30, 0, ascii "5", 0⟩ :=
    accepted_of_parse? (by decide +kernel)
  refine ⟨?_, (haccepted _).mpr ⟨_, heast⟩, hinstant _ _ _ _ heast hutc ?_⟩
  · obtain ⟨x, hx, -, hvalue⟩ := hexact _ _ { year := 2000, month := 12, day := 31 } hyear ⟨rfl, rfl, rfl⟩ rfl
    refine ⟨x, hx, hvalue.trans ?_⟩
    exact_mod_cast (by decide : 86400 * daysFromCivil 2000 12 31 + 3600 * 23 + 60 * 59 + 59 - 3600 =
      978303599)
  · have hfifty : digitsValue 10 (ascii "50") = 50 := by decide +kernel
    have hfive : digitsValue 10 (ascii "5") = 5 := by decide +kernel
    have hlength : (ascii "50").length = 2 ∧ (ascii "5").length = 1 := by decide +kernel
    have hseconds : seconds ⟨2001, 1, 1, 0, 0, 0, ascii "50", 19800⟩ =
        seconds ⟨2000, 12, 31, 18, 30, 0, ascii "5", 0⟩ := by decide
    rw [instant, instant, hseconds, decimals, decimals, hfifty, hfive, hlength.1, hlength.2]
    norm_num

/-- **What a text is accepted for.**  It is in the grammar, with a month, a day and a time of day in
their ranges, but the day may be one that its month does not have, and the distance from UTC may
have any digits.  It stands for one date, the one that it names if there is such a date, and texts
with one time of day and one distance from UTC give one number only for one date. -/
theorem accepted_dates (s : Bytes) :
    (∀ x, parseRfc3339? s = some x ↔ ∃ t, Accepted s t ∧ t.toFloat = x) ∧
    (∀ t, Accepted s t → (∃! d : Date, t.StandsFor d) ∧
      ((∃ d : Date, t.Names d) ↔ t.day ≤ monthLength t.year t.month)) ∧
    (∀ s' t t' (d d' : Date), Accepted s t → Accepted s' t' → t.StandsFor d → t'.StandsFor d' →
      t.hour = t'.hour → t.minute = t'.minute → t.second = t'.second → t.offset = t'.offset →
      value t.toFloat = value t'.toFloat → d = d') := by
  refine ⟨fun _ => parseRfc3339?_eq_some_iff, fun t h => ⟨?_, h.exists_named_iff⟩,
    fun s' t t' d d' h h' hd hd' => ?_⟩
  · exact existsUnique_of_exists_of_unique h.exists_date fun _ _ hd he => h.date_unique hd he
  · intro hour minute second offset hvalue
    have hdays := h.days_eq_of_value_eq h' hour minute second offset hvalue
    refine Date.bijective_days.injective ?_
    rw [hd.days (inRange_iff.mp h.inRange).1.1, hd'.days (inRange_iff.mp h'.inRange).1.1, hdays]

theorem accepted_february : Accepted (ascii "2021-02-30T00:00:00Z") ⟨2021, 2, 30, 0, 0, 0, [], 0⟩ :=
  accepted_of_parse? (by decide +kernel)

theorem accepted_march : Accepted (ascii "2021-03-02T00:00:00Z") ⟨2021, 3, 2, 0, 0, 0, [], 0⟩ :=
  accepted_of_parse? (by decide +kernel)

theorem toFloat_february : toFloat ⟨2021, 2, 30, 0, 0, 0, [], 0⟩ = toFloat ⟨2021, 3, 2, 0, 0, 0, [], 0⟩ := by
  have hseconds : seconds ⟨2021, 2, 30, 0, 0, 0, [], 0⟩ = seconds ⟨2021, 3, 2, 0, 0, 0, [], 0⟩ := by decide
  exact accepted_february.toFloat_congr accepted_march (by rw [instant, instant, hseconds])

/-- Two texts with one number stand for one date. -/
theorem accepted_dates_february :
    ∃ d : Date, StandsFor ⟨2021, 2, 30, 0, 0, 0, [], 0⟩ d ∧ StandsFor ⟨2021, 3, 2, 0, 0, 0, [], 0⟩ d := by
  obtain ⟨-, hfebruary, hsame⟩ := accepted_dates (ascii "2021-02-30T00:00:00Z")
  obtain ⟨-, hmarch, -⟩ := accepted_dates (ascii "2021-03-02T00:00:00Z")
  obtain ⟨⟨d, hd, -⟩, -⟩ := hfebruary _ accepted_february
  obtain ⟨⟨d', hd', -⟩, -⟩ := hmarch _ accepted_march
  have heq := hsame _ _ _ d d' accepted_february accepted_march hd hd' rfl rfl rfl rfl
    (congrArg value toFloat_february)
  exact ⟨d, hd, heq ▸ hd'⟩

/-- The 30th of February is accepted and stands for the 2nd of March, and a distance from UTC may be
of more than a day. -/
theorem thirtieth_of_february :
    (∃ t, Accepted (ascii "2021-02-30T00:00:00Z") t ∧ ∀ d : Date, ¬ t.Names d) ∧
    (∃ x, parseRfc3339? (ascii "2021-02-30T00:00:00Z") = some x ∧
      parseRfc3339? (ascii "2021-03-02T00:00:00Z") = some x) ∧
    ∃ t, Accepted (ascii "2021-04-07T10:15:00+24:60") t ∧ t.offset = 24 * 3600 + 60 * 60 := by
  have hoffset : Accepted (ascii "2021-04-07T10:15:00+24:60") ⟨2021, 4, 7, 10, 15, 0, [], 90000⟩ :=
    accepted_of_parse? (by decide +kernel)
  refine ⟨⟨_, accepted_february, fun d hnames => ?_⟩, ⟨_, accepted_february.parseRfc3339?_eq, ?_⟩,
    ⟨_, hoffset, by decide⟩⟩
  · exact absurd (accepted_february.exists_named_iff.mp ⟨d, hnames⟩) (by decide)
  · rw [accepted_march.parseRfc3339?_eq, toFloat_february]

end Telemetry.DateTime

import Mathlib.Data.Int.ConditionallyCompleteOrder
import Mathlib.Data.Prod.Lex
import Mathlib.Tactic.IntervalCases
import Telemetry.Calendar

/-!
# The Gregorian calendar

A date is a day that its month has (`Date`), and `Date.next` is the day that follows it by the rules of
the calendar: the lengths of the months, with a leap day every four years but not in three of four
centuries.  The day number of `daysFromCivil` follows these rules (`days_next`).  It numbers all dates,
before and after 1970, in their order and leaves no number out (`strictMono_days`, `bijective_days`).
-/

namespace Telemetry

/-! ## Dates -/

/-- Every fourth year, but of the centuries only every fourth one. -/
def IsLeap (year : Int) : Prop := year % 4 = 0 ∧ (year % 100 ≠ 0 ∨ year % 400 = 0)

instance (year : Int) : Decidable (IsLeap year) :=
  inferInstanceAs (Decidable (year % 4 = 0 ∧ (year % 100 ≠ 0 ∨ year % 400 = 0)))

/-- The number of days of a month. -/
def monthLength (year : Int) (month : Nat) : Nat :=
  if month = 2 then if IsLeap year then 29 else 28
  else if month = 4 ∨ month = 6 ∨ month = 9 ∨ month = 11 then 30
  else 31

/-- A date of the proleptic Gregorian calendar. -/
@[ext]
structure Date where
  year : Int
  month : Nat
  day : Nat
  month_pos : 1 ≤ month := by decide
  month_le : month ≤ 12 := by decide
  day_pos : 1 ≤ day := by decide
  day_le : day ≤ monthLength year month := by decide
  deriving DecidableEq

theorem le_monthLength (year : Int) (month : Nat) : 28 ≤ monthLength year month := by
  unfold monthLength
  split
  · split <;> decide
  · split <;> decide

theorem one_le_monthLength (year : Int) (month : Nat) : 1 ≤ monthLength year month :=
  le_trans (by decide) (le_monthLength year month)

theorem monthLength_le (year : Int) (month : Nat) : monthLength year month ≤ 31 := by
  unfold monthLength
  split
  · split <;> decide
  · split <;> decide

namespace Date

theorem day_le_31 (d : Date) : d.day ≤ 31 := d.day_le.trans (monthLength_le d.year d.month)

/-- The first day of a month. -/
def first (year : Int) (month : Nat) (hpos : 1 ≤ month) (hle : month ≤ 12) : Date :=
  ⟨year, month, 1, hpos, hle, le_refl 1, one_le_monthLength year month⟩

/-- The day that follows. -/
def next (d : Date) : Date :=
  if hday : d.day + 1 ≤ monthLength d.year d.month then
    ⟨d.year, d.month, d.day + 1, d.month_pos, d.month_le, Nat.succ_pos _, hday⟩
  else if hmonth : d.month + 1 ≤ 12 then first d.year (d.month + 1) (Nat.succ_pos _) hmonth
  else first (d.year + 1) 1 (le_refl 1) (by decide)

/-- The first day that is counted. -/
def epoch : Date where
  year := 1970
  month := 1
  day := 1

/-- Days from 1970-01-01. -/
def days (d : Date) : Int := daysFromCivil d.year d.month d.day

def key (d : Date) : Int ×ₗ Nat ×ₗ Nat := toLex (d.year, toLex (d.month, d.day))

theorem key_injective : Function.Injective key := by
  intro d e h
  have hkey : (d.year, toLex (d.month, d.day)) = (e.year, toLex (e.month, e.day)) := h
  obtain ⟨hyear, hrest⟩ := Prod.mk.inj hkey
  obtain ⟨hmonth, hday⟩ := Prod.mk.inj (toLex.injective hrest)
  exact Date.ext hyear hmonth hday

/-- Dates in their order: by year, then by month, then by day. -/
instance : LinearOrder Date := LinearOrder.lift' key key_injective

theorem lt_iff {d e : Date} : d < e ↔
    d.year < e.year ∨ (d.year = e.year ∧ (d.month < e.month ∨ (d.month = e.month ∧ d.day < e.day))) := by
  change key d < key e ↔ _
  rw [key, key, Prod.Lex.toLex_lt_toLex, Prod.Lex.toLex_lt_toLex]

end Date

/-! ## Years that start in March -/

/-- The year that a month belongs to if years start in March. -/
def marchYear (year : Int) (month : Nat) : Int := if month ≤ 2 then year - 1 else year

/-- The months before a month in a year that starts in March. -/
def marchMonth (month : Nat) : Nat := (month + 9) % 12

/-- Days before a year that starts in March, up to a constant. -/
def daysBefore (year : Int) : Int := 365 * year + year / 4 - year / 100 + year / 400

/-- Days before a month in a year that starts in March. -/
def daysUpTo (month : Nat) : Int := ((153 * month + 2) / 5 : Nat)

/-- **Days are counted by years, months and days** once the eras are put together. -/
theorem daysFromCivil_eq (year : Int) (month : Nat) {day : Nat} (hday : 1 ≤ day) :
    daysFromCivil year month day =
      daysBefore (marchYear year month) + daysUpTo (marchMonth month) + day - 719469 := by
  have hera : ∀ y, y = marchYear year month → daysFromCivil year month day =
      y / 400 * 146097 + (y % 400 * 365 + y % 400 / 4 - y % 400 / 100 +
        ((153 * marchMonth month + 2) / 5 + day - 1 : Nat)) - 719468 := by
    rintro _ rfl
    rfl
  unfold daysBefore daysUpTo
  rw [hera _ rfl]
  omega

/-- A year is as long as the leap day of its February makes it, which ends it. -/
theorem daysBefore_succ (year : Int) :
    daysBefore (year + 1) = daysBefore year + 337 + monthLength (year + 1) 2 := by
  have hlength : monthLength (year + 1) 2 = if IsLeap (year + 1) then 29 else 28 := rfl
  unfold daysBefore
  by_cases hleap : IsLeap (year + 1)
  · rw [hlength, if_pos hleap]
    unfold IsLeap at hleap
    omega
  · rw [hlength, if_neg hleap]
    unfold IsLeap at hleap
    omega

theorem daysBefore_mono : Monotone daysBefore := by
  intro y z h
  unfold daysBefore
  omega

theorem daysUpTo_mono : Monotone daysUpTo := by
  intro m n h
  unfold daysUpTo
  omega

/-- All months but February have a length that only depends on their place. -/
theorem daysUpTo_succ {year : Int} {month : Nat} (hpos : 1 ≤ month) (hle : month ≤ 12)
    (hmonth : month ≠ 2) :
    daysUpTo (marchMonth month + 1) = daysUpTo (marchMonth month) + monthLength year month := by
  unfold monthLength
  rw [if_neg hmonth]
  interval_cases month
  · rfl
  · exact absurd rfl hmonth
  all_goals rfl

namespace Date

variable {d e : Date}

theorem days_eq (d : Date) : d.days =
    daysBefore (marchYear d.year d.month) + daysUpTo (marchMonth d.month) + d.day - 719469 :=
  daysFromCivil_eq d.year d.month d.day_pos

/-! ## The next day -/

theorem daysFromCivil_first_succ {year : Int} {month : Nat} (hpos : 1 ≤ month) (hlt : month + 1 ≤ 12) :
    daysFromCivil year (month + 1) 1 = daysFromCivil year month (monthLength year month) + 1 := by
  rw [daysFromCivil_eq _ _ (le_refl 1), daysFromCivil_eq _ _ (one_le_monthLength year month)]
  by_cases hmonth : month = 2
  · -- the year that starts in March changes
    subst hmonth
    have hyear := daysBefore_succ (year - 1)
    rw [sub_add_cancel] at hyear
    have hfebruary : marchYear year 2 = year - 1 := rfl
    have hmarch : marchYear year (2 + 1) = year := rfl
    have hlast : daysUpTo (marchMonth 2) = 337 := rfl
    have hfirst : daysUpTo (marchMonth (2 + 1)) = 0 := rfl
    rw [hfebruary, hmarch, hlast, hfirst, hyear]
    push_cast
    omega
  · have hlength := @daysUpTo_succ year month hpos (by omega) hmonth
    have hyear : marchYear year (month + 1) = marchYear year month := by
      unfold marchYear
      split <;> split <;> omega
    have hnext : marchMonth (month + 1) = marchMonth month + 1 := by
      unfold marchMonth
      omega
    rw [hyear, hnext, hlength]
    push_cast
    omega

theorem daysFromCivil_january (year : Int) :
    daysFromCivil year 1 1 = daysBefore (year - 1) - 719162 := by
  have hyear : marchYear year 1 = year - 1 := rfl
  have hmonth : daysUpTo (marchMonth 1) = 306 := rfl
  rw [daysFromCivil_eq _ _ (le_refl 1), hyear, hmonth]
  push_cast
  omega

theorem daysFromCivil_new_year (year : Int) :
    daysFromCivil (year + 1) 1 1 = daysFromCivil year 12 31 + 1 := by
  have hyear : marchYear year 12 = year := rfl
  have hmonth : daysUpTo (marchMonth 12) = 275 := rfl
  rw [daysFromCivil_january, add_sub_cancel_right, daysFromCivil_eq _ _ (by decide), hyear, hmonth]
  push_cast
  omega

/-- **The number of the next day is the next number.** -/
theorem days_next (d : Date) : d.next.days = d.days + 1 := by
  have hle := d.day_le
  have hmonth := d.month_le
  unfold next
  split
  · next hlt =>
    rw [days_eq, days_eq]
    push_cast
    omega
  · next hlast =>
    have hlength : monthLength d.year d.month = d.day := by omega
    split
    · next hlt =>
      have hfirst := @daysFromCivil_first_succ d.year _ d.month_pos hlt
      rwa [hlength] at hfirst
    · next hend =>
      have hdecember : d.month = 12 := by omega
      have hlong : d.day = 31 := by
        rw [← hlength, hdecember]
        rfl
      have hfirst := daysFromCivil_new_year d.year
      rwa [← hlong, ← hdecember] at hfirst

theorem days_epoch : epoch.days = 0 := by decide

/-! ## The order of days -/

/-- The month of a date has room for its day, and the year for all its months. -/
theorem daysUpTo_add_day_le (d : Date) :
    (marchMonth d.month ≤ 10 ∧
      daysUpTo (marchMonth d.month) + d.day ≤ daysUpTo (marchMonth d.month + 1)) ∨
    (marchMonth d.month = 11 ∧
      daysUpTo (marchMonth d.month) + d.day ≤ 337 + monthLength (marchYear d.year d.month + 1) 2) := by
  have hle := d.day_le
  have hmonth := d.month_le
  by_cases hfebruary : d.month = 2
  · right
    have hlast : daysUpTo (marchMonth 2) = 337 := rfl
    have hyear : marchYear d.year 2 + 1 = d.year := sub_add_cancel d.year 1
    rw [hfebruary] at hle ⊢
    rw [hlast, hyear]
    exact ⟨rfl, by omega⟩
  · left
    have hsucc := @daysUpTo_succ d.year _ d.month_pos hmonth hfebruary
    have hpos := d.month_pos
    refine ⟨?_, by omega⟩
    unfold marchMonth
    omega

/-- **Later dates have greater numbers.** -/
theorem strictMono_days : StrictMono days := by
  intro d e hlt
  have hd := d.daysUpTo_add_day_le
  have he := e.day_pos
  have hmonths : daysUpTo 11 = 337 := rfl
  have hzero : ∀ m, 0 ≤ daysUpTo m := fun m => Int.natCast_nonneg _
  have hyear := daysBefore_succ (marchYear d.year d.month)
  have horder : marchYear d.year d.month < marchYear e.year e.month ∨
      (marchYear d.year d.month = marchYear e.year e.month ∧
        (marchMonth d.month < marchMonth e.month ∨ (d.month = e.month ∧ d.day < e.day))) := by
    have hbounds := And.intro (And.intro d.month_pos d.month_le) (And.intro e.month_pos e.month_le)
    rw [lt_iff] at hlt
    unfold marchYear marchMonth
    omega
  rw [days_eq, days_eq]
  rcases horder with hyears | ⟨hyears, hmonths' | ⟨hmonth, hday⟩⟩
  · have hmono := daysBefore_mono (Int.add_one_le_of_lt hyears)
    have hnonneg := hzero (marchMonth e.month)
    have hfull : daysUpTo (marchMonth d.month) + d.day ≤
        337 + monthLength (marchYear d.year d.month + 1) 2 := by
      rcases hd with ⟨hm, hroom⟩ | ⟨-, hroom⟩
      · have hend := daysUpTo_mono (show marchMonth d.month + 1 ≤ 11 by omega)
        omega
      · exact hroom
    omega
  · have hmono := daysUpTo_mono (Nat.succ_le_of_lt hmonths')
    have hlast : marchMonth e.month ≤ 11 := Nat.le_of_lt_succ (Nat.mod_lt _ (by decide))
    rw [hyears]
    rcases hd with ⟨-, hroom⟩ | ⟨hm, -⟩
    · have hroom' : daysUpTo (marchMonth d.month) + d.day ≤ daysUpTo (marchMonth e.month) :=
        hroom.trans hmono
      omega
    · omega
  · rw [hyears, hmonth]
    omega

/-- A date before all numbers from some number on. -/
theorem exists_days_le (n : Int) : ∃ d : Date, d.days ≤ n := by
  refine ⟨first (1970 - n.natAbs) 1 (le_refl 1) (by decide), ?_⟩
  change daysFromCivil (1970 - n.natAbs) 1 1 ≤ n
  rw [daysFromCivil_january]
  unfold daysBefore
  omega

/-- **Every number is the number of exactly one date.** -/
theorem bijective_days : Function.Bijective days := by
  refine ⟨strictMono_days.injective, fun n => ?_⟩
  obtain ⟨d, hd⟩ := exists_days_le n
  obtain ⟨k, hk⟩ := Int.eq_ofNat_of_zero_le (Int.sub_nonneg_of_le hd)
  -- the dates after an early one are reached one by one
  have hreach : ∀ k : Nat, ∃ e : Date, e.days = d.days + k := by
    intro k
    induction k with
    | zero => exact ⟨d, (Int.add_zero _).symm⟩
    | succ k ih =>
      obtain ⟨e, he⟩ := ih
      refine ⟨e.next, ?_⟩
      rw [days_next, he]
      push_cast
      omega
  obtain ⟨e, he⟩ := hreach k
  exact ⟨e, by omega⟩

end Date

end Telemetry

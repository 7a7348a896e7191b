import Mathlib.Data.Option.Basic
import Telemetry.Calendar
import Telemetry.Proofs.Numeral.Digits

/-!
# The grammar of written times

`Spelled` is the grammar of a written time: a date, a time of day, an optional fraction and an optional
distance from UTC, each number with a fixed number of digits.  A text is accepted exactly if it is in the
grammar and its month, day and time of day are in their ranges (`parse?_eq_some_iff`).
-/

namespace Telemetry.DateTime

open Bytes

/-! ## The grammar -/

/-- A number of exactly `n` digits. -/
structure Field (n : Nat) (text : Bytes) (v : Nat) : Prop where
  length : text.length = n
  digits : text.all isDigit = true
  value : digitsValue 10 text = v

/-- Nothing, or a point and at least one digit. -/
inductive FractionPart : Bytes → Bytes → Prop
  | none : FractionPart [] []
  | digits {ds : Bytes} (hne : ds ≠ []) (hdigits : ds.all isDigit = true) :
      FractionPart (byte '.' :: ds) ds

/-- Nothing or a letter for UTC, or a sign and the hours and minutes of a distance. -/
inductive Zone : Bytes → Int → Prop
  | unsaid : Zone [] 0
  | utc {b : UInt8} (hb : b = byte 'Z' ∨ b = byte 'z') : Zone [b] 0
  | ahead {hs ms : Bytes} {h m : Nat} (hours : Field 2 hs h) (minutes : Field 2 ms m) :
      Zone (byte '+' :: (hs ++ byte ':' :: ms)) (h * 3600 + m * 60)
  | behind {hs ms : Bytes} {h m : Nat} (hours : Field 2 hs h) (minutes : Field 2 ms m) :
      Zone (byte '-' :: (hs ++ byte ':' :: ms)) (-(h * 3600 + m * 60))

/-- A date, a letter or a blank, a time of day, a fraction and a zone. -/
inductive Spelled : Bytes → DateTime → Prop
  | intro {ys ms ds hs mins ss fs zs : Bytes} {between : UInt8} {t : DateTime}
      (year : Field 4 ys t.year) (month : Field 2 ms t.month) (day : Field 2 ds t.day)
      (hbetween : between = byte 'T' ∨ between = byte 't' ∨ between = byte ' ')
      (hour : Field 2 hs t.hour) (minute : Field 2 mins t.minute) (second : Field 2 ss t.second)
      (fraction : FractionPart fs t.fraction) (zone : Zone zs t.offset) :
      Spelled (ys ++ byte '-' :: (ms ++ byte '-' :: (ds ++ between :: (hs ++ byte ':' :: (mins ++
        byte ':' :: (ss ++ (fs ++ zs))))))) t

/-! ## The readers -/

variable {s rest : Bytes}

theorem digits_eq_some_iff {n v : Nat} :
    digits n s = some (v, rest) ↔ ∃ text, Field n text v ∧ s = text ++ rest := by
  unfold digits
  dsimp only
  split
  · next h =>
    rw [Option.some.injEq, Prod.mk.injEq]
    constructor
    · rintro ⟨rfl, rfl⟩
      exact ⟨s.take n, ⟨h.1, h.2, rfl⟩, (List.take_append_drop n s).symm⟩
    · rintro ⟨text, ⟨rfl, -, rfl⟩, rfl⟩
      exact ⟨by rw [List.take_left], List.drop_left⟩
  · next h =>
    refine ⟨nofun, ?_⟩
    rintro ⟨text, ⟨rfl, hdigits, -⟩, rfl⟩
    rw [List.take_left] at h
    exact absurd ⟨rfl, hdigits⟩ h

theorem one_eq_some_iff {p : UInt8 → Bool} : one p s = some rest ↔ ∃ b, p b = true ∧ s = b :: rest := by
  cases s with
  | nil => simp [one]
  | cons b s =>
    simp only [one, List.cons.injEq]
    split
    · next hb =>
      rw [Option.some.injEq]
      exact ⟨fun h => ⟨b, hb, rfl, h⟩, fun ⟨_, _, _, h⟩ => h⟩
    · next hb =>
      refine ⟨nofun, ?_⟩
      rintro ⟨c, hc, rfl, -⟩
      exact absurd hc hb

theorem one_beq_eq_some_iff {c : UInt8} : one (· == c) s = some rest ↔ s = c :: rest := by
  simp [one_eq_some_iff]

theorem clock_eq_some_iff {a b : Nat} : clock s = some ((a, b), rest) ↔
    ∃ as bs, Field 2 as a ∧ Field 2 bs b ∧ s = as ++ byte ':' :: (bs ++ rest) := by
  unfold clock
  simp only [Option.bind_eq_bind, Option.bind_eq_some_iff, Prod.exists, digits_eq_some_iff,
    one_beq_eq_some_iff, Option.pure_def, Option.some.injEq, Prod.mk.injEq]
  constructor
  · rintro ⟨_, _, ⟨as, ha, rfl⟩, _, rfl, _, _, ⟨bs, hb, rfl⟩, ⟨rfl, rfl⟩, rfl⟩
    exact ⟨as, bs, ha, hb, rfl⟩
  · rintro ⟨as, bs, ha, hb, rfl⟩
    exact ⟨a, _, ⟨as, ha, rfl⟩, _, rfl, b, rest, ⟨bs, hb, rfl⟩, ⟨rfl, rfl⟩, rfl⟩

/-- Two numbers that fill the whole text. -/
theorem clock_eq_some_nil_iff {a b : Nat} : clock s = some ((a, b), []) ↔
    ∃ as bs, Field 2 as a ∧ Field 2 bs b ∧ s = as ++ byte ':' :: bs := by
  simp only [clock_eq_some_iff, List.append_nil]

theorem scanOffset_eq_some_iff {offset : Int} : scanOffset s = some offset ↔ Zone s offset := by
  constructor
  · intro h
    unfold scanOffset at h
    split at h
    · cases h
      exact .unsaid
    · next b rest =>
      split at h
      · next hb =>
        split at h
        · next hempty =>
          obtain rfl := List.isEmpty_iff.mp hempty
          cases h
          exact .utc (by simpa using hb)
        · cases h
      · split at h
        · next hb =>
          simp only [Option.bind_eq_bind, Option.bind_eq_some_iff, Prod.exists, Option.guard_eq_some',
            List.isEmpty_iff, Option.pure_def, Option.some.injEq] at h
          obtain ⟨hours, minutes, rest, hclock, _, rfl, rfl⟩ := h
          obtain ⟨hs, ms, hhours, hminutes, rfl⟩ := clock_eq_some_nil_iff.mp hclock
          split
          · next hminus =>
            rw [hminus]
            exact .behind hhours hminutes
          · next hminus =>
            have hplus : b = byte '+' := by simpa [hminus] using hb
            rw [hplus]
            exact .ahead hhours hminutes
        · cases h
  · rintro (_ | ⟨hb⟩ | ⟨hhours, hminutes⟩ | ⟨hhours, hminutes⟩)
    · rfl
    · rcases hb with rfl | rfl <;> rfl
    all_goals
      have hclock := clock_eq_some_nil_iff.mpr ⟨_, _, hhours, hminutes, rfl⟩
      rw [scanOffset, if_neg (by decide), if_pos (by decide), hclock]
      rfl

/-- What may follow a fraction cannot be taken for a part of it. -/
theorem Zone.head_eq {b : UInt8} {rest : Bytes} {offset : Int} (h : Zone (b :: rest) offset) :
    isDigit b = false ∧ b ≠ byte '.' := by
  have hall : b = byte 'Z' ∨ b = byte 'z' ∨ b = byte '+' ∨ b = byte '-' := by
    cases h with
    | utc hb => exact hb.imp_right Or.inl
    | ahead => exact Or.inr (Or.inr (Or.inl rfl))
    | behind => exact Or.inr (Or.inr (Or.inr rfl))
  rcases hall with rfl | rfl | rfl | rfl <;> decide

theorem scanFraction_append {fs zs fraction : Bytes} {offset : Int} (hfraction : FractionPart fs fraction)
    (hzone : Zone zs offset) : scanFraction (fs ++ zs) = some (fraction, zs) := by
  cases hfraction with
  | none =>
    cases zs with
    | nil => rfl
    | cons b zs => exact if_neg hzone.head_eq.2
  | digits hne hdigits =>
    have htake : (fraction ++ zs).takeWhile isDigit = fraction ∧ (fraction ++ zs).dropWhile isDigit = zs := by
      have hall := List.all_eq_true.mp hdigits
      rw [List.takeWhile_append_of_pos hall, List.dropWhile_append_of_pos hall]
      cases zs with
      | nil => exact ⟨List.append_nil _, rfl⟩
      | cons b zs =>
        have hb := Bool.eq_false_iff.mp hzone.head_eq.1
        rw [List.takeWhile_cons_of_neg hb, List.dropWhile_cons_of_neg hb, List.append_nil]
        exact ⟨rfl, rfl⟩
    rw [List.cons_append, scanFraction, if_pos rfl, htake.1, htake.2, if_neg]
    rw [List.isEmpty_iff]
    exact hne

theorem exists_of_scanFraction {fraction : Bytes} (h : scanFraction s = some (fraction, rest)) :
    ∃ fs, FractionPart fs fraction ∧ s = fs ++ rest := by
  unfold scanFraction at h
  split at h
  · obtain ⟨rfl, rfl⟩ := Prod.mk.inj (Option.some.inj h)
    exact ⟨[], .none, rfl⟩
  · next b s =>
    split at h
    · next hpoint =>
      split at h
      · cases h
      · next hne =>
        obtain ⟨rfl, rfl⟩ := Prod.mk.inj (Option.some.inj h)
        refine ⟨byte '.' :: s.takeWhile isDigit, .digits (by simpa using hne) ?_, ?_⟩
        · exact List.all_takeWhile
        · rw [hpoint, List.cons_append, List.takeWhile_append_dropWhile]
    · obtain ⟨rfl, rfl⟩ := Prod.mk.inj (Option.some.inj h)
      exact ⟨[], .none, rfl⟩

/-- A fraction and a zone end a text in one way only. -/
theorem scanTail_iff {fraction : Bytes} {offset : Int} :
    (∃ rest, scanFraction s = some (fraction, rest) ∧ scanOffset rest = some offset) ↔
      ∃ fs zs, FractionPart fs fraction ∧ Zone zs offset ∧ s = fs ++ zs := by
  constructor
  · rintro ⟨rest, hfraction, hoffset⟩
    obtain ⟨fs, hfs, rfl⟩ := exists_of_scanFraction hfraction
    exact ⟨fs, rest, hfs, scanOffset_eq_some_iff.mp hoffset, rfl⟩
  · rintro ⟨fs, zs, hfs, hzs, rfl⟩
    exact ⟨zs, scanFraction_append hfs hzs, scanOffset_eq_some_iff.mpr hzs⟩

/-- What may stand between the date and the time of day. -/
theorem one_between_iff : one (fun b => b == byte 'T' || b == byte 't' || b == byte ' ') s = some rest ↔
    ∃ b, (b = byte 'T' ∨ b = byte 't' ∨ b = byte ' ') ∧ s = b :: rest := by
  simp [one_eq_some_iff, or_assoc]

/-- **A time is read exactly if it is spelled by the grammar and its fields are in their ranges.** -/
theorem parse?_eq_some_iff {t : DateTime} : parse? s = some t ↔ Spelled s t ∧ t.inRange = true := by
  unfold parse?
  simp only [Option.bind_eq_bind, Option.bind_eq_some_iff, Prod.exists, digits_eq_some_iff,
    one_beq_eq_some_iff, one_between_iff, clock_eq_some_iff, Option.guard_eq_some', Option.pure_def,
    Option.some.injEq]
  constructor
  · rintro ⟨year, _, ⟨ys, hyear, rfl⟩, _, rfl, month, _, ⟨ms, hmonth, rfl⟩, _, rfl, day, _,
      ⟨ds, hday, rfl⟩, _, ⟨b, hb, rfl⟩, hour, minute, _, ⟨hs, mins, hhour, hminute, rfl⟩, _, rfl, second,
      _, ⟨ss, hsecond, rfl⟩, fraction, _, hfraction, offset, hoffset, _, hrange, rfl⟩
    obtain ⟨fs, zs, hfs, hzs, rfl⟩ := scanTail_iff.mp ⟨_, hfraction, hoffset⟩
    exact ⟨.intro hyear hmonth hday hb hhour hminute hsecond hfs hzs, hrange⟩
  · rintro ⟨⟨hyear, hmonth, hday, hb, hhour, hminute, hsecond, hfs, hzs⟩, hrange⟩
    obtain ⟨rest, hfraction, hoffset⟩ := scanTail_iff.mpr ⟨_, _, hfs, hzs, rfl⟩
    exact ⟨t.year, _, ⟨_, hyear, rfl⟩, _, rfl, t.month, _, ⟨_, hmonth, rfl⟩, _, rfl, t.day, _,
      ⟨_, hday, rfl⟩, _, ⟨_, hb, rfl⟩, t.hour, t.minute, _, ⟨_, _, hhour, hminute, rfl⟩, _, rfl, t.second,
      _, ⟨_, hsecond, rfl⟩, t.fraction, rest, hfraction, t.offset, hoffset, (), hrange, rfl⟩

end Telemetry.DateTime

import Telemetry.Event
import Telemetry.Proofs.Calendar.Seconds

/-!
# Times of events

A time is a number or a text, and either way it is a finite double (`isFinite_time?`).  Only a number has its
sign checked, so a text may be of a time before 1970 (`value_neg_iff`), and only a text has few seconds, so a
number may be too large for a word (`le_value_iff`).
-/

namespace Telemetry.Event

open Binary64

variable {x : Float}

theorem time?_number {n : Number} : time? (.number n) = some x ↔
    n.toFloat = x ∧ isFinite x = true ∧ 0 ≤ value x := by
  have hsign : ∀ {y : Float}, (isFinite y && !(y < 0)) = true ↔ isFinite y = true ∧ 0 ≤ value y := by
    intro y
    rw [Bool.and_eq_true, Bool.not_eq_true', decide_eq_false_iff_not]
    refine and_congr_right fun hfinite => ?_
    rw [lt_iff hfinite value_zero.1, value_zero.2, not_lt]
  unfold time?
  dsimp only
  split
  · next hchecked =>
    rw [Option.some.injEq]
    exact ⟨fun h => ⟨h, h ▸ hsign.mp hchecked⟩, And.left⟩
  · next hchecked =>
    refine ⟨nofun, ?_⟩
    rintro ⟨rfl, h⟩
    exact absurd (hsign.mpr h) hchecked

theorem time?_string {s : Bytes} : time? (.string s) = some x ↔
    ∃ t, DateTime.Accepted s t ∧ t.toFloat = x :=
  DateTime.parseRfc3339?_eq_some_iff

/-- **Every time that can be read is a finite double.** -/
theorem isFinite_time? {j : Json} (h : time? j = some x) : isFinite x = true := by
  cases j with
  | number n => exact (time?_number.mp h).2.1
  | string s =>
    obtain ⟨t, ht, rfl⟩ := time?_string.mp h
    exact ht.value_toFloat.1
  | _ => cases h

theorem isFinite_timeAt? {event : Json} {name : String} (h : timeAt? event name = some x) :
    isFinite x = true := by
  obtain ⟨j, -, hj⟩ := Option.bind_eq_some_iff.mp h
  exact isFinite_time? hj

/-- A text is of a time some ten thousand years from 1970 at most. -/
theorem value_lt_of_text {s : Bytes} (h : time? (.string s) = some x) : value x < 2 ^ 64 := by
  obtain ⟨t, ht, rfl⟩ := time?_string.mp h
  have hlt := ht.natAbs_seconds_lt
  have hseconds : (t.seconds : ℚ) + 1 < 2 ^ 64 := by
    norm_cast
    omega
  exact ht.value_toFloat_bounds.2.trans_lt hseconds

/-- A text of a time before 1970. -/
def BeforeEpoch (j : Json) : Prop :=
  ∃ s t, j = .string s ∧ DateTime.Accepted s t ∧ t.seconds + value t.fractionValue < 0

/-- **Only a text of a time before 1970 is a negative time.** -/
theorem value_neg_iff {j : Json} (h : time? j = some x) : value x < 0 ↔ BeforeEpoch j := by
  cases j with
  | number n =>
    have hnonneg := (time?_number.mp h).2.2
    refine iff_of_false hnonneg.not_gt ?_
    rintro ⟨_, _, hj, -⟩
    cases hj
  | string s =>
    constructor
    · intro hneg
      obtain ⟨t, ht, rfl⟩ := time?_string.mp h
      exact ⟨s, t, rfl, ht, ht.value_toFloat_neg_iff.mp hneg⟩
    · rintro ⟨_, t, hj, ht, hneg⟩
      cases hj
      have hx := (time?_string (x := t.toFloat)).mpr ⟨t, ht, rfl⟩
      obtain rfl := Option.some.inj (h.symm.trans hx)
      exact ht.value_toFloat_neg_iff.mpr hneg
  | _ => cases h

/-- A number that no word can hold. -/
def Huge (j : Json) : Prop := ∃ n, j = .number n ∧ 2 ^ 64 ≤ value n.toFloat

/-- **Only a number can be a time that is too large for a word.** -/
theorem le_value_iff {j : Json} (h : time? j = some x) : 2 ^ 64 ≤ value x ↔ Huge j := by
  cases j with
  | number n =>
    obtain ⟨rfl, -⟩ := time?_number.mp h
    constructor
    · exact fun hle => ⟨n, rfl, hle⟩
    · rintro ⟨_, hj, hle⟩
      cases hj
      exact hle
  | string s =>
    refine iff_of_false (value_lt_of_text h).not_ge ?_
    rintro ⟨_, hj, -⟩
    cases hj
  | _ => cases h

end Telemetry.Event

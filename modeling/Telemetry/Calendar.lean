import Telemetry.Bytes

/-!
# The Gregorian calendar and written times

Days are counted from 1970-01-01 in the proleptic calendar, whose years start in March for the
count, so that a leap day ends its year and 400 years are one era.  A written time is a date, a
time of day, an optional fraction and an optional distance from UTC.  The ranges of its fields are
checked one by one; the length of a month is not, and the distance may have any digits.
-/

namespace Telemetry

open Bytes

/-- Days from 1970-01-01 to a date. -/
def daysFromCivil (year : Int) (month day : Nat) : Int :=
  let y := if month ≤ 2 then year - 1 else year
  let era := y / 400
  let yearOfEra := y % 400
  let dayOfYear : Nat := (153 * ((month + 9) % 12) + 2) / 5 + day - 1
  let dayOfEra := yearOfEra * 365 + yearOfEra / 4 - yearOfEra / 100 + dayOfYear
  era * 146097 + dayOfEra - 719468

/-- A written time. -/
structure DateTime where
  year : Nat
  month : Nat
  day : Nat
  hour : Nat
  minute : Nat
  second : Nat
  /-- The digits after the point. -/
  fraction : Bytes
  /-- Seconds ahead of UTC. -/
  offset : Int
  deriving DecidableEq

namespace DateTime

/-! ## Reading -/

/-- A number of exactly `n` digits and what follows it. -/
def digits (n : Nat) (s : Bytes) : Option (Nat × Bytes) :=
  let d := s.take n
  if d.length = n ∧ d.all isDigit then some (digitsValue 10 d, s.drop n) else none

/-- One byte of a class and what follows it. -/
def one (p : UInt8 → Bool) : Bytes → Option Bytes
  | [] => none
  | b :: rest => if p b then some rest else none

/-- Two numbers of two digits with a colon between. -/
def clock (s : Bytes) : Option ((Nat × Nat) × Bytes) := do
  let (a, s) ← digits 2 s
  let s ← one (· == byte ':') s
  let (b, s) ← digits 2 s
  return ((a, b), s)

/-- The digits after a point, if there is one; a point needs at least one digit. -/
def scanFraction : Bytes → Option (Bytes × Bytes)
  | [] => some ([], [])
  | b :: rest =>
    if b = byte '.' then
      if (rest.takeWhile isDigit).isEmpty then none
      else some (rest.takeWhile isDigit, rest.dropWhile isDigit)
    else some ([], b :: rest)

/-- The distance from UTC that ends a time; none counts as UTC. -/
def scanOffset : Bytes → Option Int
  | [] => some 0
  | b :: rest =>
    if b = byte 'Z' || b = byte 'z' then (if rest.isEmpty then some 0 else none)
    else if b = byte '+' || b = byte '-' then do
      let ((hours, minutes), rest) ← clock rest
      guard rest.isEmpty
      let seconds : Int := hours * 3600 + minutes * 60
      return if b = byte '-' then -seconds else seconds
    else none

/-- Every field is in its own range. -/
def inRange (t : DateTime) : Bool :=
  1 ≤ t.month && t.month ≤ 12 && 1 ≤ t.day && t.day ≤ 31 && t.hour ≤ 23 && t.minute ≤ 59 &&
    t.second ≤ 60

/-- The time that fills the whole text. -/
def parse? (s : Bytes) : Option DateTime := do
  let (year, s) ← digits 4 s
  let s ← one (· == byte '-') s
  let (month, s) ← digits 2 s
  let s ← one (· == byte '-') s
  let (day, s) ← digits 2 s
  let s ← one (fun b => b == byte 'T' || b == byte 't' || b == byte ' ') s
  let ((hour, minute), s) ← clock s
  let s ← one (· == byte ':') s
  let (second, s) ← digits 2 s
  let (fraction, s) ← scanFraction s
  let offset ← scanOffset s
  let t : DateTime := ⟨year, month, day, hour, minute, second, fraction, offset⟩
  guard t.inRange
  return t

/-! ## Seconds -/

/-- Whole seconds since the start of 1970 in UTC. -/
def seconds (t : DateTime) : Int :=
  daysFromCivil t.year t.month t.day * 86400 + t.hour * 3600 + t.minute * 60 + t.second - t.offset

/-- The fraction, summed digit by digit from the first one. -/
def fractionValue (t : DateTime) : Float :=
  (t.fraction.foldl (fun (acc, scale) d => (acc + Float.ofNat (digitValue d) * scale, scale / 10))
    ((0 : Float), (0.1 : Float))).1

/-- Seconds since the start of 1970 in UTC. -/
def toFloat (t : DateTime) : Float := Float.ofInt t.seconds + t.fractionValue

end DateTime

/-- The seconds that an RFC 3339 text stands for. -/
def parseRfc3339? (s : Bytes) : Option Float := (DateTime.parse? s).map DateTime.toFloat

end Telemetry

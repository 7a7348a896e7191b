import Telemetry.Bytes

/-!
# Exact arithmetic around binary64

Readings are `Float`s.  This module says, in natural numbers, which rational a finite double is and
which double a rational is rounded to.  A finite double with magnitude bits `n` is `m * 2 ^ q` with
`n = (q + 1074) * 2 ^ 52 + m`, where `m < 2 ^ 53` and `q ≥ -1074`: the sum carries by itself from
the subnormal numbers into the normal ones and from one power of two into the next.
-/

namespace Telemetry.Binary64

/-! ## Weights of bits -/

/-- `2 ^ 52`, the number of mantissas between two powers of two. -/
abbrev binade : Nat := 0x10000000000000

/-- `2 ^ 63`, the weight of the sign. -/
abbrev signWeight : Nat := 0x8000000000000000

/-! ## Rationals to doubles -/

/-- The quotient rounded to the nearest natural number, a half to the even neighbour. -/
def roundHalfEven (num den : Nat) : Nat :=
  let quotient := num / den
  let twice := 2 * (num % den)
  if den < twice || (twice == den && quotient % 2 == 1) then quotient + 1 else quotient

/-- `coefficient * base ^ exponent` as numerator and denominator. -/
def scaled (coefficient base : Nat) (exponent : Int) : Nat × Nat :=
  if 0 ≤ exponent then (coefficient * Nat.pow base exponent.toNat, 1)
  else (coefficient, Nat.pow base (-exponent).toNat)

/-- `num / den` in units of `base ^ exponent`, as numerator and denominator. -/
def inUnits (num den base : Nat) (exponent : Int) : Nat × Nat :=
  let unit := scaled 1 base exponent
  (num * unit.2, den * unit.1)

/-- The greatest exponent `e` with `2 ^ e ≤ num / den`, for positive arguments. -/
def floorLog2 (num den : Nat) : Int :=
  let e : Int := (num.log2 : Int) - (den.log2 : Int)
  let (n, d) := inUnits num den 2 e
  if n < d then e - 1 else e

/-- The exponent of the last mantissa bit that a double keeps of `num / den`. -/
def lastBit (num den : Nat) : Int := max (-1074) (floorLog2 num den - 52)

/-- The magnitude bits of infinity. -/
def infinityBits : Nat := 0x7ff0000000000000

/-- The magnitude bits of the double nearest to `num / den`, a tie to the even mantissa; those of
infinity where the finite doubles end. -/
def nearestBits (num den : Nat) : Nat :=
  if num = 0 then 0
  else
    let q := lastBit num den
    let (n, d) := inUnits num den 2 q
    min ((q + 1074).toNat * binade + roundHalfEven n d) infinityBits

/-- Whether `num / den` is below the least normal double even after rounding to 53 bits. -/
def isTiny (num den : Nat) : Bool := num * Nat.pow 2 1076 < (4 * binade - 1) * den

/-- Whether `num / den` is a whole number of units of `2 ^ -places`. -/
def isWholeIn (num den places : Nat) : Bool := num * Nat.pow 2 places % den == 0

/-- Whether a subnormal double keeps the first 53 bits of `num / den`, its 54th bit is anything, and
no bit comes after that. -/
def keepsLeadingBits (num den : Nat) : Bool :=
  let e := floorLog2 num den
  let (n, d) := inUnits num den 2 (e - 53)
  n % d == 0 && n / d / 2 % Nat.pow 2 (-1022 - e).toNat == 0

/-- The double with a sign and magnitude bits. -/
def ofSignBits (negative : Bool) (bits : Nat) : Float :=
  Float.ofBits (UInt64.ofNat (if negative then signWeight + bits else bits))

/-! ## Doubles to rationals -/

/-- A finite double in full: `mantissa * 2 ^ exponent`, negated if `negative`. -/
structure Finite where
  negative : Bool
  mantissa : Nat
  exponent : Int
  deriving DecidableEq, Repr

/-- The magnitude bits of a double: all but its sign. -/
def magnitudeBits (x : Float) : Nat := x.toBits.toNat % signWeight

/-- Whether the sign bit is set. -/
def isNegative (x : Float) : Bool := signWeight ≤ x.toBits.toNat

/-- The exact value of a double; `none` for the infinities and for NaN. -/
def finite? (x : Float) : Option Finite :=
  let bits : Nat := magnitudeBits x
  if infinityBits ≤ bits then none
  else
    let biased : Nat := bits / binade
    let fraction := bits % binade
    if biased = 0 then some ⟨isNegative x, fraction, -1074⟩
    else some ⟨isNegative x, binade + fraction, (biased : Int) - 1075⟩

/-- Neither infinite nor NaN. -/
def isFinite (x : Float) : Bool := magnitudeBits x < infinityBits

namespace Finite

/-- The magnitude as numerator and denominator. -/
def ratio (x : Finite) : Nat × Nat := scaled x.mantissa 2 x.exponent

/-- The magnitude without its fraction. -/
def truncate (x : Finite) : Nat := x.ratio.1 / x.ratio.2

end Finite

/-! ## Doubles and words -/

/-- The double nearest to a word. -/
def ofWord (n : UInt64) : Float := n.toFloat

/-- A double as a 64-bit word: truncated toward zero, a negative number modulo `2 ^ 64`.  Beyond the
range of both word types the result is `0` from above and `2 ^ 63` from below or for NaN. -/
def toWord (x : Float) : UInt64 :=
  match finite? x with
  | none => if isNegative x || magnitudeBits x != infinityBits then 0x8000000000000000 else 0
  | some v =>
    let t := v.truncate
    if v.negative then if t ≤ signWeight then 0 - UInt64.ofNat t else 0x8000000000000000
    else if t < UInt64.size then UInt64.ofNat t else 0

end Telemetry.Binary64

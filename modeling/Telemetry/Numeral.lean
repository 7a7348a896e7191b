import Telemetry.Binary64.Shortest

/-!
# Written numbers

A numeral is a sign, a whole coefficient and a power of ten or, for hexadecimal numerals, of two.
`Numeral.round` gives the nearest double.  `Numeral.scan?` reads the numerals of submission lines:
leading blanks, a sign, decimal or hexadecimal digits with at most one point, and an exponent.
`Numeral.write?` gives a finite double the fewest digits that read back, with a point where they
have it if that is not far off, else with an exponent.
-/

namespace Telemetry

open Bytes

/-- `coefficient * base ^ exponent`, negated if `negative`. -/
structure Numeral where
  negative : Bool
  coefficient : Nat
  base : Nat
  exponent : Int
  deriving DecidableEq, Repr

namespace Numeral

/-! ## Rounding -/

/-- The magnitude as numerator and denominator. -/
def ratio (n : Numeral) : Nat × Nat :=
  if n.coefficient = 0 then (0, 1) else Binary64.scaled n.coefficient n.base n.exponent

/-- The magnitude is above every finite double for its exponent alone. -/
def huge (n : Numeral) : Bool := n.coefficient != 0 && 1100 < n.exponent

/-- The magnitude is not zero and below half the least double for its exponent alone. -/
def minute (n : Numeral) : Bool :=
  n.coefficient != 0 && n.exponent < -(1100 + (n.coefficient.log2 : Int))

/-- The magnitude bits of the nearest double. -/
def bits (n : Numeral) : Nat :=
  if n.huge then Binary64.infinityBits
  else if n.minute then 0
  else Binary64.nearestBits n.ratio.1 n.ratio.2

/-- The nearest double; an infinity if the magnitude is too large. -/
def round (n : Numeral) : Float := Binary64.ofSignBits n.negative n.bits

/-- No finite double is nearest. -/
def overflows (n : Numeral) : Bool := Binary64.infinityBits ≤ n.bits

/-- A numeral of a subnormal double seems exact.  Its 54th bit goes unseen, since a numeral is cut to
53 bits before the bits that a subnormal double lacks are looked at; but a decimal numeral is first
cut to units of `2 ^ -1076`, and what that takes away is seen. -/
def seemsExact (n : Numeral) : Bool :=
  Binary64.keepsLeadingBits n.ratio.1 n.ratio.2 &&
    (n.base == 2 || Binary64.isWholeIn n.ratio.1 n.ratio.2 1076)

/-- The value is too small for a normal double and does not seem to be a double. -/
def underflows (n : Numeral) : Bool :=
  n.minute || (!n.huge && Binary64.isTiny n.ratio.1 n.ratio.2 && !n.seemsExact)

/-! ## Reading -/

/-- Digits around an optional point: the whole part, the fraction and the rest of the text. -/
def scanDigits (p : UInt8 → Bool) (s : Bytes) : Bytes × Bytes × Bytes :=
  let whole := s.takeWhile p
  match s.dropWhile p with
  | b :: rest =>
    if b = byte '.' then (whole, rest.takeWhile p, rest.dropWhile p) else (whole, [], b :: rest)
  | [] => (whole, [], [])

/-- A sign and what follows it; no sign counts as plus. -/
def scanSign : Bytes → Bool × Bytes
  | b :: rest =>
    if b = byte '-' then (true, rest) else if b = byte '+' then (false, rest) else (false, b :: rest)
  | [] => (false, [])

/-- The exponent part that ends a numeral: nothing, or the mark, a sign and digits. -/
def scanExponent? (mark : UInt8) : Bytes → Option Int
  | [] => some 0
  | b :: rest =>
    if lowerByte b = mark then
      let (negative, digits) := scanSign rest
      (decimal? digits).map fun e => if negative then -(e : Int) else e
    else none

/-- A numeral without sign whose digits are of class `p`: each digit after the point counts for
`perDigit` steps of the exponent. -/
def scanUnsigned? (negative : Bool) (p : UInt8 → Bool) (digitBase base perDigit : Nat)
    (mark : UInt8) (s : Bytes) : Option Numeral :=
  let (whole, fraction, rest) := scanDigits p s
  if (whole ++ fraction).isEmpty then none
  else (scanExponent? mark rest).map fun e =>
    ⟨negative, digitsValue digitBase (whole ++ fraction), base, e - perDigit * fraction.length⟩

/-- The blanks that may precede a numeral. -/
def isBlank (b : UInt8) : Bool := b == byte ' ' || (0x09 ≤ b && b ≤ 0x0d)

/-- The numeral that fills the whole text. -/
def scan? (s : Bytes) : Option Numeral :=
  let (negative, body) := scanSign (s.dropWhile isBlank)
  match body with
  | zero :: mark :: rest =>
    if zero = byte '0' ∧ lowerByte mark = byte 'x' then
      scanUnsigned? negative isHex 16 2 4 (byte 'p') rest
    else scanUnsigned? negative isDigit 10 10 1 (byte 'e') body
  | _ => scanUnsigned? negative isDigit 10 10 1 (byte 'e') body

/-! ## Writing -/

/-- The digits of a positive decimal without trailing zeros, and the exponent of the last one. -/
def significant (d : Binary64.Decimal) : Bytes × Int :=
  let digits := (decimal d.coefficient).reverse
  let zeros := (digits.takeWhile (· == byte '0')).length
  ((digits.drop zeros).reverse, d.exponent + zeros)

/-- That many digits are written without an exponent: the number is at least `10 ^ -4` and below
`10 ^ 15`. -/
def isPositional (digits : Nat) (exponent : Int) : Bool :=
  -4 < digits + exponent && digits + exponent ≤ 15

/-- At least two digits. -/
def twoDigits (n : Nat) : Bytes := if n < 10 then byte '0' :: decimal n else decimal n

/-- One digit, a point before any others, and the exponent with its sign. -/
def scientific (digits : Bytes) (exponent : Int) : Bytes :=
  let e := exponent + digits.length - 1
  let mantissa := match digits with
    | [] => []
    | [d] => [d]
    | d :: more => d :: byte '.' :: more
  mantissa ++ [byte 'e', if e < 0 then byte '-' else byte '+'] ++ twoDigits e.natAbs

/-- All digits, with a point where the exponent puts it. -/
def positional (digits : Bytes) (exponent : Int) : Bytes :=
  if 0 ≤ exponent then digits ++ List.replicate exponent.toNat (byte '0') ++ ascii ".0"
  else
    let places := (-exponent).toNat
    if digits.length ≤ places then
      ascii "0." ++ List.replicate (places - digits.length) (byte '0') ++ digits
    else
      digits.take (digits.length - places) ++ [byte '.'] ++ digits.drop (digits.length - places)

/-- The text of a finite double. -/
def writeFinite (x : Binary64.Finite) : Bytes :=
  let sign := if x.negative then [byte '-'] else []
  if x.mantissa = 0 then sign ++ ascii "0.0"
  else
    let (digits, exponent) := significant (Binary64.shortest x)
    if isPositional digits.length exponent then sign ++ positional digits exponent
    else sign ++ scientific digits exponent

/-- The text of a double; `none` for the infinities and for NaN. -/
def write? (x : Float) : Option Bytes := (Binary64.finite? x).map writeFinite

end Numeral

end Telemetry

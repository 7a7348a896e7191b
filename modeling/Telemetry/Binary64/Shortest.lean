import Telemetry.Binary64

/-!
# The shortest decimal of a double

For 1, 2, … 17 digits the two neighbours of the value on that decimal grid are read back, the nearer
one first and of two equally near ones the even one; the first that gives the same double wins.  So
the result reads back by construction, and no shorter decimal lies before it in the search.  Should
no grid have one, the exact binary expansion stands in, which is a decimal as well.
-/

namespace Telemetry.Binary64

/-- A positive decimal: `coefficient * 10 ^ exponent`. -/
structure Decimal where
  coefficient : Nat
  exponent : Int
  deriving DecidableEq, Repr

namespace Decimal

/-- The value as numerator and denominator. -/
def ratio (d : Decimal) : Nat × Nat := scaled d.coefficient 10 d.exponent

/-- The magnitude bits of the double nearest to the decimal. -/
def bits (d : Decimal) : Nat := nearestBits d.ratio.1 d.ratio.2

end Decimal

/-- The greatest exponent `e` with `10 ^ e ≤ num / den`, found from an estimate at most two off. -/
def floorLog10 (num den : Nat) : Int :=
  let estimate : Int := floorLog2 num den * 30103 / 100000 - 1
  let atMost (e : Int) : Bool :=
    let (n, d) := inUnits num den 10 e
    d ≤ n
  if atMost (estimate + 2) then estimate + 2
  else if atMost (estimate + 1) then estimate + 1
  else estimate

/-- The neighbours of `num / den` on the grid of the multiples of `10 ^ e`, the nearer one first. -/
def neighbours (num den : Nat) (e : Int) : List Decimal :=
  let (n, d) := inUnits num den 10 e
  let below := n / d
  let nearer := roundHalfEven n d
  [⟨nearer, e⟩, ⟨if nearer = below then below + 1 else below, e⟩]

/-- The exact decimal expansion of `mantissa * 2 ^ exponent`. -/
def exactDecimal (mantissa : Nat) (exponent : Int) : Decimal :=
  if 0 ≤ exponent then ⟨mantissa * Nat.pow 2 exponent.toNat, 0⟩
  else ⟨mantissa * Nat.pow 5 (-exponent).toNat, exponent⟩

/-- The decimals to try for a finite double: shorter ones first. -/
def candidates (x : Finite) : List Decimal :=
  let (num, den) := x.ratio
  let top := floorLog10 num den
  (List.range 17).flatMap fun (digits : Nat) => neighbours num den (top - digits)

/-- The shortest decimal that reads back as the magnitude of a positive finite double. -/
def shortest (x : Finite) : Decimal :=
  let bits := nearestBits x.ratio.1 x.ratio.2
  match (candidates x).find? fun d => d.bits == bits with
  | some d => d
  | none => exactDecimal x.mantissa x.exponent

end Telemetry.Binary64

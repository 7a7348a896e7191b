import Telemetry.Metric.Value

/-!
# Metric names

The full name of a metric is `kind:namespace/name@unit`.  The classes of bytes of its parts make
the form unambiguous: a namespace has no slash and a unit no at-sign, so the first slash and the
last at-sign are the ones that were written.
-/

namespace Telemetry

open Bytes

/-- A metric name in its parts. -/
structure Identifier where
  kind : Kind
  space : Bytes
  name : Bytes
  unit : Bytes := ascii "none"
  deriving DecidableEq

namespace Identifier

/-- The namespace of a name that gives none. -/
def defaultSpace : Bytes := ascii "custom"

/-- The unit of a name that gives none. -/
def defaultUnit : Bytes := ascii "none"

/-- One or more small letters. -/
def validSpace (s : Bytes) : Bool := !s.isEmpty && s.all isLower

/-- The bytes of metric names and tag keys. -/
def isNameByte (b : UInt8) : Bool :=
  isAlnum b || b == byte '_' || b == byte '.' || b == byte '-' || b == byte '/'

/-- At most 150 bytes, the first of them a letter. -/
def validName (s : Bytes) : Bool :=
  s.length ≤ 150 && (s.head?.map isAlpha).getD false && s.all isNameByte

/-- One to 15 letters, digits and underscores. -/
def validUnit (s : Bytes) : Bool := !s.isEmpty && s.length ≤ 15 && s.all isWord

/-- One to 200 bytes of the class of names. -/
def validTagKey (s : Bytes) : Bool := !s.isEmpty && s.length ≤ 200 && s.all isNameByte

/-- All parts are valid. -/
def valid (m : Identifier) : Bool := validSpace m.space && validName m.name && validUnit m.unit

/-- The full name. -/
def text (m : Identifier) : Bytes :=
  m.kind.letter :: byte ':' :: m.space ++ byte '/' :: m.name ++ byte '@' :: m.unit

/-- The name and the unit around the last at-sign, or the default unit. -/
def splitUnit (s : Bytes) : Bytes × Bytes := (cutLast? (byte '@') s).getD (s, defaultUnit)

/-- The parts of a full name, whose unit may be missing. -/
def parse? : Bytes → Option Identifier
  | letter :: colon :: rest => do
    let kind ← Kind.ofLetter? letter
    guard (colon = byte ':')
    let (space, rest) ← cut? (byte '/') rest
    let (name, unit) := splitUnit rest
    let m : Identifier := ⟨kind, space, name, unit⟩
    guard m.valid
    return m
  | _ => none

end Identifier

end Telemetry

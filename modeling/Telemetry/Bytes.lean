/-!
# Byte strings

Submissions, names, tags and payloads are strings of bytes without a promised encoding, kept as
lists so that every reader is a recursion on the data.  The character classes here are those of
ASCII: a byte above `0x7f` is in none of them.  `split` cuts at every separator, `cut?` at the
first and `cutLast?` at the last one.
-/

namespace Telemetry

/-- A text: any bytes, in order. -/
abbrev Bytes := List UInt8

/-- The byte of an ASCII character. -/
abbrev byte (c : Char) : UInt8 := c.toUInt8

/-- The bytes of an ASCII literal. -/
def ascii (s : String) : Bytes := s.toList.map byte

namespace Bytes

/-! ## Character classes -/

def isDigit (b : UInt8) : Bool := byte '0' ≤ b && b ≤ byte '9'

def isLower (b : UInt8) : Bool := byte 'a' ≤ b && b ≤ byte 'z'

def isUpper (b : UInt8) : Bool := byte 'A' ≤ b && b ≤ byte 'Z'

def isAlpha (b : UInt8) : Bool := isLower b || isUpper b

def isAlnum (b : UInt8) : Bool := isAlpha b || isDigit b

def isHex (b : UInt8) : Bool :=
  isDigit b || (byte 'a' ≤ b && b ≤ byte 'f') || (byte 'A' ≤ b && b ≤ byte 'F')

/-- A letter, a digit or an underscore. -/
def isWord (b : UInt8) : Bool := isAlnum b || b == byte '_'

/-- The value of a decimal or hexadecimal digit; 0 for any other byte. -/
def digitValue (b : UInt8) : Nat :=
  if isDigit b then (b - byte '0').toNat
  else if byte 'a' ≤ b && b ≤ byte 'f' then (b - byte 'a').toNat + 10
  else if byte 'A' ≤ b && b ≤ byte 'F' then (b - byte 'A').toNat + 10
  else 0

/-- Capital letters become small ones, every other byte stays. -/
def lowerByte (b : UInt8) : UInt8 := if isUpper b then b + 32 else b

/-- ASCII case folding, byte by byte. -/
def lower (s : Bytes) : Bytes := s.map lowerByte

/-! ## Cutting -/

/-- The pieces between the bytes of a class; never empty. -/
def splitWhere (p : UInt8 → Bool) : Bytes → List Bytes
  | [] => [[]]
  | b :: rest =>
    if p b then [] :: splitWhere p rest
    else match splitWhere p rest with
      | [] => [[b]]
      | piece :: more => (b :: piece) :: more

/-- The pieces between the occurrences of a separator; never empty. -/
def split (sep : UInt8) (s : Bytes) : List Bytes := splitWhere (· == sep) s

/-- What stands before and after the first separator. -/
def cut? (sep : UInt8) (s : Bytes) : Option (Bytes × Bytes) :=
  match s.dropWhile (· != sep) with
  | [] => none
  | _ :: rest => some (s.takeWhile (· != sep), rest)

/-- What stands before and after the last separator. -/
def cutLast? (sep : UInt8) (s : Bytes) : Option (Bytes × Bytes) :=
  (cut? sep s.reverse).map fun (after, before) => (before.reverse, after.reverse)

/-- What follows a given start. -/
def afterStart? : (start s : Bytes) → Option Bytes
  | [], s => some s
  | _ :: _, [] => none
  | a :: start, b :: rest => if a = b then afterStart? start rest else none

/-- The text before the first NUL byte, where messages, addresses and the names of files end. -/
def untilNul (s : Bytes) : Bytes := s.takeWhile (· != 0)

/-- The text without the leading and trailing bytes of a class. -/
def trim (p : UInt8 → Bool) (s : Bytes) : Bytes :=
  ((s.dropWhile p).reverse.dropWhile p).reverse

theorem splitWhere_ne_nil (p : UInt8 → Bool) (s : Bytes) : splitWhere p s ≠ [] := by
  cases s with
  | nil => simp [splitWhere]
  | cons b rest =>
    unfold splitWhere
    split
    · simp
    · split <;> simp

theorem split_ne_nil (sep : UInt8) (s : Bytes) : split sep s ≠ [] := splitWhere_ne_nil _ s

/-- The start and the rest make up the text. -/
theorem afterStart?_eq_some_iff {start s rest : Bytes} :
    afterStart? start s = some rest ↔ s = start ++ rest := by
  induction start generalizing s with
  | nil => simp [afterStart?]
  | cons a start ih =>
    cases s with
    | nil => simp [afterStart?]
    | cons b s =>
      by_cases h : a = b
      · simp [afterStart?, h, ih]
      · simp [afterStart?, h, Ne.symm h]

/-! ## Decimal digits -/

/-- The number that a sequence of digits in a base stands for. -/
def digitsValue (base : Nat) (s : Bytes) : Nat :=
  s.foldl (fun acc b => base * acc + digitValue b) 0

/-- The number written by decimal digits alone: no sign, no blank, at least one digit. -/
def decimal? (s : Bytes) : Option Nat :=
  if s.isEmpty || !s.all isDigit then none else some (digitsValue 10 s)

/-- The decimal digits of a number. -/
def decimal (n : Nat) : Bytes := (Nat.toDigits 10 n).map byte

/-- A lower-case hexadecimal digit. -/
def hexDigit (n : Nat) : UInt8 := byte (Nat.digitChar (n % 16))

end Bytes

end Telemetry

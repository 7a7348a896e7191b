import Telemetry.Bytes

/-!
# Transaction names

Names taken from addresses hold ids, which would make a metric of every page view.  A name is cut at
slashes and backslashes, and a segment that holds an id, a date or a number becomes a star.  The
separators stay, and each segment is judged on its own.
-/

namespace Telemetry.TransactionName

open Bytes

/-! ## Segments -/

def isSeparator (b : UInt8) : Bool := b == byte '/' || b == byte '\\'

/-- The first segment, and every later one with the separator before it. -/
def segments : Bytes → Bytes × List (UInt8 × Bytes)
  | [] => ([], [])
  | b :: rest =>
    let (first, more) := segments rest
    if isSeparator b then ([], (b, first) :: more) else (b :: first, more)

/-- The name of segments and separators. -/
def join (first : Bytes) (more : List (UInt8 × Bytes)) : Bytes :=
  first ++ more.flatMap fun (separator, segment) => separator :: segment

/-! ## Patterns -/

/-- Whether the rest of the text after some position satisfies a predicate. -/
def anywhere (p : Bytes → Bool) : Bytes → Bool
  | [] => p []
  | b :: rest => p (b :: rest) || anywhere p rest

/-- What follows a text of a given shape, in which a `d` stands for a digit, an `h` for a
hexadecimal digit and every other byte for itself. -/
def afterShape? : (shape s : Bytes) → Option Bytes
  | [], s => some s
  | _ :: _, [] => none
  | c :: shape, b :: rest =>
    let fits :=
      if c = byte 'd' then isDigit b else if c = byte 'h' then isHex b else c == b
    if fits then afterShape? shape rest else none

/-- Groups of 8, 4, 4, 4 and 12 hexadecimal digits. -/
def uuidShape : Bytes := ascii "hhhhhhhh-hhhh-hhhh-hhhh-hhhhhhhhhhhh"

/-- The text starts with a UUID that no word goes on from. -/
def startsWithUuid (s : Bytes) : Bool :=
  match afterShape? uuidShape s with
  | some (b :: _) => !isWord b
  | some [] => true
  | none => false

/-- A UUID that touches no word, given whether a word stands before the text. -/
def hasUuid (wordBefore : Bool) : Bytes → Bool
  | [] => false
  | b :: rest => (!wordBefore && startsWithUuid (b :: rest)) || hasUuid (isWord b) rest

/-- What follows the fraction of a second, if there is one; a point needs a digit. -/
def afterFraction? : Bytes → Option Bytes
  | b :: rest =>
    if b = byte '.' then
      if (rest.takeWhile isDigit).isEmpty then none else some (rest.dropWhile isDigit)
    else some (b :: rest)
  | [] => some []

/-- What follows the seconds, if there are any. -/
def afterSeconds? : Bytes → Option Bytes
  | b :: rest =>
    if b = byte ':' then (afterShape? (ascii "dd") rest).bind afterFraction? else some (b :: rest)
  | [] => some []

/-- The text starts with a time zone. -/
def startsWithZone : Bytes → Bool
  | b :: rest =>
    b == byte 'Z' ||
      ((b == byte '+' || b == byte '-') && (afterShape? (ascii "dd:dd") rest).isSome)
  | [] => false

/-- The text starts with a date and a time of day with its zone. -/
def startsWithTime (s : Bytes) : Bool :=
  match (afterShape? (ascii "dddd-dd-ddTdd:dd") s).bind afterSeconds? with
  | some rest => startsWithZone rest
  | none => false

/-- The maximal runs of letters, digits and underscores. -/
def words (s : Bytes) : List Bytes :=
  (splitWhere (fun b => !isWord b) s).filter fun w => !w.isEmpty

/-- A word that stands for a value: a hash, a hexadecimal literal or a number. -/
def isValueWord (w : Bytes) : Bool :=
  (w.length == 40 && w.all isHex) || (w.length == 32 && w.all isHex) ||
    (match w with
      | zero :: x :: digits =>
        zero == byte '0' && lowerByte x == byte 'x' && !digits.isEmpty && digits.all isHex
      | _ => false) ||
    (2 ≤ w.length && w.all isDigit)

/-- A segment that does not belong to the name. -/
def isVariable (segment : Bytes) : Bool :=
  hasUuid false segment || anywhere startsWithTime segment || (words segment).any isValueWord

/-! ## Scrubbing -/

def scrubSegment (segment : Bytes) : Bytes := if isVariable segment then [byte '*'] else segment

/-- The name with a star for every variable segment. -/
def scrub (name : Bytes) : Bytes :=
  let (first, more) := segments name
  join (scrubSegment first) (more.map fun (separator, s) => (separator, scrubSegment s))

end Telemetry.TransactionName

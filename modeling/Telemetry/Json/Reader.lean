import Telemetry.Json
import Telemetry.Numeral

/-!
# Reading JSON text

The strict grammar: one value and blanks around tokens.  A byte order mark may precede it.  A text
ends where its bytes do or at a NUL byte between tokens, whatever follows that byte.  Strings have
to be UTF-8 without raw control characters, and a surrogate escape needs its partner.  The last of
several members of one name wins.  A number beyond the finite doubles makes the text invalid; one
too small becomes zero.

Containers recurse on a bound that every token lowers, so the length of the text suffices.
-/

namespace Telemetry.Json

open Bytes

/-- A value and the text after it. -/
abbrev Scan (α : Type) := Option (α × Bytes)

def isBlank (b : UInt8) : Bool :=
  b == byte ' ' || b == byte '\t' || b == byte '\n' || b == byte '\r'

def skipBlanks (s : Bytes) : Bytes := s.dropWhile isBlank

/-! ## Strings -/

/-- The number of four hexadecimal digits. -/
def hex4? (a b c d : UInt8) : Option Nat :=
  if [a, b, c, d].all isHex then some (digitsValue 16 [a, b, c, d]) else none

/-- What a backslash and a letter stand for. -/
def shortEscape? (b : UInt8) : Option UInt8 :=
  if b = byte '"' || b = byte '\\' || b = byte '/' then some b
  else if b = byte 'b' then some 0x08
  else if b = byte 'f' then some 0x0c
  else if b = byte 'n' then some 0x0a
  else if b = byte 'r' then some 0x0d
  else if b = byte 't' then some 0x09
  else none

/-- The code point of a pair of surrogates. -/
def joinSurrogates (high low : Nat) : Nat := 0x10000 + (high - 0xd800) * 0x400 + (low - 0xdc00)

/-- The bytes of a string up to its closing quote, escapes resolved. -/
def scanChars : Bytes → Scan Bytes
  | [] => none
  | b :: rest =>
    if b = byte '"' then some ([], rest)
    else if b = byte '\\' then
      match rest with
      | e :: rest =>
        if e = byte 'u' then
          match rest with
          | h1 :: h2 :: h3 :: h4 :: rest =>
            match hex4? h1 h2 h3 h4 with
            | none => none
            | some c =>
              if 0xdc00 ≤ c && c ≤ 0xdfff then none
              else if 0xd800 ≤ c && c ≤ 0xdbff then
                match rest with
                | backslash :: u :: l1 :: l2 :: l3 :: l4 :: rest =>
                  if backslash = byte '\\' ∧ u = byte 'u' then
                    match hex4? l1 l2 l3 l4 with
                    | none => none
                    | some low =>
                      if 0xdc00 ≤ low && low ≤ 0xdfff then
                        (scanChars rest).map fun (s, after) =>
                          (Utf8.encode (joinSurrogates c low) ++ s, after)
                      else none
                  else none
                | _ => none
              else (scanChars rest).map fun (s, after) => (Utf8.encode c ++ s, after)
          | _ => none
        else match shortEscape? e with
          | none => none
          | some c => (scanChars rest).map fun (s, after) => (c :: s, after)
      | [] => none
    else if b < 0x20 then none
    else (scanChars rest).map fun (s, after) => (b :: s, after)

/-- A string after its opening quote. -/
def scanString (s : Bytes) : Scan Bytes :=
  (scanChars s).bind fun (chars, after) =>
    if Utf8.valid chars then some (chars, after) else none

/-! ## Numbers -/

/-- A whole number without sign: zero, or digits that do not start with zero. -/
def wholeDigits? (digits : Bytes) : Option Bytes :=
  match digits with
  | [] => none
  | [d] => some [d]
  | d :: _ => if d = byte '0' then none else some digits

/-- The fraction after a point, if there is one. -/
def scanFraction : Bytes → Scan (Option Bytes)
  | b :: rest =>
    if b = byte '.' then
      let digits := rest.takeWhile isDigit
      if digits.isEmpty then none else some (some digits, rest.dropWhile isDigit)
    else some (none, b :: rest)
  | [] => some (none, [])

/-- The exponent after its mark, if there is one. -/
def scanExponent : Bytes → Scan (Option Int)
  | b :: rest =>
    if lowerByte b = byte 'e' then
      let (negative, body) := Numeral.scanSign rest
      let digits := body.takeWhile isDigit
      if digits.isEmpty then none
      else
        let e : Int := digitsValue 10 digits
        some (some (if negative then -e else e), body.dropWhile isDigit)
    else some (none, b :: rest)
  | [] => some (none, [])

/-- The number that a sign, digits, a fraction and an exponent write. -/
def classify (negative : Bool) (whole : Bytes) (fraction : Option Bytes) (exponent : Option Int) :
    Option Number :=
  let magnitude := digitsValue 10 whole
  if fraction.isNone && exponent.isNone && !negative && magnitude < UInt64.size then
    some (.unsigned (UInt64.ofNat magnitude))
  else if fraction.isNone && exponent.isNone && negative && magnitude ≤ Binary64.signWeight then
    some (.signed (Int64.ofInt (-(magnitude : Int))))
  else
    let places := fraction.getD []
    let n : Numeral :=
      ⟨negative, digitsValue 10 (whole ++ places), 10, exponent.getD 0 - places.length⟩
    if n.overflows then none else some (.float n.round)

def scanNumber (s : Bytes) : Option (Number × Bytes) := do
  let (negative, body) := match s with
    | b :: rest => if b = byte '-' then (true, rest) else (false, s)
    | [] => (false, s)
  let whole ← wholeDigits? (body.takeWhile isDigit)
  let (fraction, rest) ← scanFraction (body.dropWhile isDigit)
  let (exponent, rest) ← scanExponent rest
  let n ← classify negative whole fraction exponent
  return (n, rest)

/-- A word that stands for a value. -/
def scanWord (word : String) (j : Json) (s : Bytes) : Scan Json :=
  (afterStart? (ascii word) s).map fun rest => (j, rest)

/-! ## Containers -/

mutual

/-- The value that starts the text, after blanks. -/
def scanValue : Nat → Bytes → Scan Json
  | 0, _ => none
  | bound + 1, s =>
    match skipBlanks s with
    | [] => none
    | b :: rest =>
      if b = byte '\x7b' then
        match skipBlanks rest with
        | [] => none
        | c :: after =>
          if c = byte '\x7d' then some (.object [], after)
          else (scanMembers bound [] (c :: after)).map fun (ms, after) => (.object ms, after)
      else if b = byte '[' then
        match skipBlanks rest with
        | [] => none
        | c :: after =>
          if c = byte ']' then some (.array [], after)
          else (scanItems bound (c :: after)).map fun (items, after) => (.array items, after)
      else if b = byte '"' then (scanString rest).map fun (s, after) => (.string s, after)
      else if b = byte 't' then scanWord "true" (.bool true) (b :: rest)
      else if b = byte 'f' then scanWord "false" (.bool false) (b :: rest)
      else if b = byte 'n' then scanWord "null" .null (b :: rest)
      else (scanNumber (b :: rest)).map fun (n, after) => (.number n, after)

/-- The items of a list from one of them to the closing bracket. -/
def scanItems : Nat → Bytes → Scan (List Json)
  | 0, _ => none
  | bound + 1, s =>
    match scanValue bound s with
    | none => none
    | some (j, after) =>
      match skipBlanks after with
      | [] => none
      | c :: rest =>
        if c = byte ',' then (scanItems bound rest).map fun (items, after) => (j :: items, after)
        else if c = byte ']' then some ([j], rest)
        else none

/-- The members of an object from one of them to the closing brace, added to those before. -/
def scanMembers : Nat → List (Bytes × Json) → Bytes → Scan (List (Bytes × Json))
  | 0, _, _ => none
  | bound + 1, members, s =>
    match skipBlanks s with
    | [] => none
    | q :: rest =>
      if q = byte '"' then
        match scanString rest with
        | none => none
        | some (name, after) =>
          match skipBlanks after with
          | [] => none
          | colon :: rest =>
            if colon = byte ':' then
              match scanValue bound rest with
              | none => none
              | some (j, after) =>
                match skipBlanks after with
                | [] => none
                | c :: rest =>
                  if c = byte ',' then scanMembers bound (Ordered.insert name j members) rest
                  else if c = byte '\x7d' then some (Ordered.insert name j members, rest)
                  else none
            else none
      else none

end

/-- The byte order mark that may start a text. -/
def dropByteOrderMark (s : Bytes) : Bytes := (afterStart? [0xef, 0xbb, 0xbf] s).getD s

/-- Nothing more of the text comes: its bytes are used up or a NUL byte ends it. -/
def atEnd : Bytes → Bool
  | [] => true
  | b :: _ => b == 0

/-- The value of a whole text. -/
def parse? (text : Bytes) : Option Json :=
  let s := dropByteOrderMark text
  match scanValue (s.length + 1) s with
  | some (j, rest) => if atEnd (skipBlanks rest) then some j else none
  | none => none

end Telemetry.Json

import Telemetry.Json
import Telemetry.Numeral

/-!
# JSON text

The compact form: no blanks, members in the order of the object, quotes, backslashes and control
characters escaped, by a letter or else by four hexadecimal digits, and every other byte as it is.
A double that is not finite has no number in JSON and is written as `null`.  Strings that are no
UTF-8 have no text, so `dump?` fails on them.
-/

namespace Telemetry.Json

open Bytes

/-- What stands for a byte behind a backslash, if it is not written by its number. -/
def escapeMark? (b : UInt8) : Option UInt8 :=
  if b = byte '"' || b = byte '\\' then some b
  else if b = 0x08 then some (byte 'b')
  else if b = 0x0c then some (byte 'f')
  else if b = 0x0a then some (byte 'n')
  else if b = 0x0d then some (byte 'r')
  else if b = 0x09 then some (byte 't')
  else none

/-- A byte inside a quoted string. -/
def escape (b : UInt8) : Bytes :=
  match escapeMark? b with
  | some mark => [byte '\\', mark]
  | none =>
    if b < 0x20 then ascii "\\u00" ++ [hexDigit (b.toNat / 16), hexDigit b.toNat] else [b]

def quote (s : Bytes) : Bytes := byte '"' :: s.flatMap escape ++ [byte '"']

def renderNumber : Number → Bytes
  | .unsigned n => decimal n.toNat
  | .signed i => if i < 0 then byte '-' :: decimal i.toInt.natAbs else decimal i.toInt.natAbs
  | .float x => (Numeral.write? x).getD (ascii "null")

mutual

def render : Json → Bytes
  | .null => ascii "null"
  | .bool true => ascii "true"
  | .bool false => ascii "false"
  | .number n => renderNumber n
  | .string s => quote s
  | .array items => byte '[' :: renderItems items ++ [byte ']']
  | .object members => byte '\x7b' :: renderMembers members ++ [byte '\x7d']

def renderItems : List Json → Bytes
  | [] => []
  | [j] => render j
  | j :: more :: rest => render j ++ byte ',' :: renderItems (more :: rest)

def renderMembers : List (Bytes × Json) → Bytes
  | [] => []
  | [(name, j)] => quote name ++ byte ':' :: render j
  | (name, j) :: more :: rest =>
    quote name ++ byte ':' :: render j ++ byte ',' :: renderMembers (more :: rest)

end

/-- The text of a value whose strings are UTF-8. -/
def dump? (j : Json) : Option Bytes := if j.encodable then some j.render else none

end Telemetry.Json

import Telemetry.Bytes

/-!
# Glob patterns

A star stands for any bytes, every other byte for itself.  The stars cut a pattern into pieces: the
first has to start the text, the last to end it, and those between have to follow one another.
Taking each at its first occurrence leaves the most room for the rest.
-/

namespace Telemetry.Glob

open Bytes

/-- What follows the first occurrence of a piece. -/
def afterFirst? (piece : Bytes) (s : Bytes) : Option Bytes :=
  match afterStart? piece s with
  | some rest => some rest
  | none => match s with
    | [] => none
    | _ :: rest => afterFirst? piece rest

/-- The pieces after a star: each occurs after the one before, the last at the end. -/
def endsWith : List Bytes → Bytes → Bool
  | [], _ => true
  | [last], s => last.isSuffixOf s
  | piece :: more, s => match afterFirst? piece s with
    | some rest => endsWith more rest
    | none => false

/-- The pieces of a pattern, the first of which starts the text. -/
def matchesPieces : List Bytes → Bytes → Bool
  | [], s => s.isEmpty
  | [whole], s => whole == s
  | first :: more, s => match afterStart? first s with
    | some rest => endsWith more rest
    | none => false

/-- Whether a pattern describes a text, case folded on both sides if asked for. -/
def matchesText (pattern text : Bytes) (ignoreCase : Bool := false) : Bool :=
  if ignoreCase then matchesPieces (split (byte '*') (lower pattern)) (lower text)
  else matchesPieces (split (byte '*') pattern) text

end Telemetry.Glob

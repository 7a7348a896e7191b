import Telemetry.Bytes

/-!
# Well-formed UTF-8

A small state machine over bytes: between characters it waits for a lead byte, inside one it
knows which continuation bytes may follow.  Overlong forms, surrogates and values above U+10FFFF
have no run.  Because it is a machine, what a concatenation does follows from its parts.
-/

namespace Telemetry.Utf8

/-- What the next byte may be. -/
inductive Expect where
  /-- The start of a character. -/
  | lead
  /-- One, two or three continuation bytes. -/
  | tail1 | tail2 | tail3
  /-- The second byte after `e0`, `ed`, `f0` and `f4`, whose range is narrower. -/
  | afterE0 | afterED | afterF0 | afterF4
  deriving DecidableEq, Repr

/-- Whether a byte lies in a range, ends included. -/
def within (lo hi b : UInt8) : Bool := lo ≤ b && b ≤ hi

/-- The state after a lead byte. -/
def start (b : UInt8) : Option Expect :=
  if b ≤ 0x7f then some .lead
  else if within 0xc2 0xdf b then some .tail1
  else if b = 0xe0 then some .afterE0
  else if b = 0xed then some .afterED
  else if within 0xe1 0xef b then some .tail2
  else if b = 0xf0 then some .afterF0
  else if b = 0xf4 then some .afterF4
  else if within 0xf1 0xf3 b then some .tail3
  else none

/-- One byte, or `none` where the text is not well formed. -/
def step (state : Expect) (b : UInt8) : Option Expect :=
  match state with
  | .lead => start b
  | .tail1 => if within 0x80 0xbf b then some .lead else none
  | .tail2 => if within 0x80 0xbf b then some .tail1 else none
  | .tail3 => if within 0x80 0xbf b then some .tail2 else none
  | .afterE0 => if within 0xa0 0xbf b then some .tail1 else none
  | .afterED => if within 0x80 0x9f b then some .tail1 else none
  | .afterF0 => if within 0x90 0xbf b then some .tail2 else none
  | .afterF4 => if within 0x80 0x8f b then some .tail2 else none

/-- The state after a whole text. -/
def run : Expect → Bytes → Option Expect
  | state, [] => some state
  | state, b :: rest => (step state b).bind fun next => run next rest

/-- The text consists of whole characters. -/
def valid (s : Bytes) : Bool := run .lead s == some .lead

theorem run_append (state : Expect) (s t : Bytes) :
    run state (s ++ t) = (run state s).bind fun next => run next t := by
  induction s generalizing state with
  | nil => rfl
  | cons b rest ih =>
    simp only [List.cons_append, run]
    cases step state b with
    | none => rfl
    | some next => exact ih next

/-- Whole characters followed by whole characters are whole characters. -/
theorem valid_append {s t : Bytes} (hs : valid s = true) (ht : valid t = true) :
    valid (s ++ t) = true := by
  simp only [valid, beq_iff_eq] at hs ht ⊢
  rw [run_append, hs]
  exact ht

/-- The bytes of a code point below U+110000. -/
def encode (c : Nat) : Bytes :=
  if c < 0x80 then [c.toUInt8]
  else if c < 0x800 then [(0xc0 + c / 0x40).toUInt8, (0x80 + c % 0x40).toUInt8]
  else if c < 0x10000 then
    [(0xe0 + c / 0x1000).toUInt8, (0x80 + c / 0x40 % 0x40).toUInt8, (0x80 + c % 0x40).toUInt8]
  else
    [(0xf0 + c / 0x40000).toUInt8, (0x80 + c / 0x1000 % 0x40).toUInt8,
      (0x80 + c / 0x40 % 0x40).toUInt8, (0x80 + c % 0x40).toUInt8]

end Telemetry.Utf8

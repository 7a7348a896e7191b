import Mathlib.Tactic.SplitIfs
import Telemetry.Json.Reader
import Telemetry.Json.Writer

/-!
# Quoted strings

Every byte of a string is written so that the reader gives it back, whatever follows it, and the
closing quote ends the string.  So a string that is UTF-8 is read as it was written.
-/

namespace Telemetry.Json

open Bytes

/-- The four hexadecimal digits of a control character. -/
theorem hex4?_control {b : UInt8} (h : b < 0x20) :
    hex4? (byte '0') (byte '0') (hexDigit (b.toNat / 16)) (hexDigit b.toNat) = some b.toNat := by
  have hall : ∀ n : Fin 32,
      hex4? (byte '0') (byte '0') (hexDigit (n / 16)) (hexDigit n) = some (n : Nat) := by decide
  exact hall ⟨b.toNat, UInt8.lt_iff_toNat_lt.mp h⟩

theorem encode_control {b : UInt8} (h : b < 0x20) : Utf8.encode b.toNat = [b] := by
  have hlt : b.toNat < 32 := UInt8.lt_iff_toNat_lt.mp h
  rw [Utf8.encode, if_pos (by omega), Nat.toUInt8, UInt8.ofNat_toNat]

/-- What stands behind a backslash is read as what it stands for. -/
theorem shortEscape?_of_escapeMark? {b mark : UInt8} (h : escapeMark? b = some mark) :
    mark ≠ byte 'u' ∧ shortEscape? mark = some b := by
  unfold escapeMark? at h
  split_ifs at h with hself hb hf hn hr ht <;> obtain rfl := Option.some.inj h
  · rcases Bool.or_eq_true_iff.mp hself with hb | hb <;> rw [of_decide_eq_true hb] <;> decide
  · exact hb ▸ by decide
  · exact hf ▸ by decide
  · exact hn ▸ by decide
  · exact hr ▸ by decide
  · exact ht ▸ by decide

/-- The quote and the backslash are not written as they are. -/
theorem ne_of_escapeMark?_eq_none {b : UInt8} (h : escapeMark? b = none) :
    b ≠ byte '"' ∧ b ≠ byte '\\' := by
  constructor <;> rintro rfl <;> exact absurd h (by decide)

/-- A written byte is read as that byte. -/
theorem scanChars_escape (b : UInt8) (rest : Bytes) :
    scanChars (escape b ++ rest) =
      (scanChars rest).map fun (s, after) => (b :: s, after) := by
  unfold escape
  cases hmark : escapeMark? b with
  | some mark =>
    obtain ⟨hne, hmeans⟩ := shortEscape?_of_escapeMark? hmark
    change scanChars (byte '\\' :: mark :: rest) = _
    rw [scanChars.eq_def]
    dsimp only
    rw [if_neg (by decide), if_pos rfl, if_neg hne, hmeans]
  | none =>
    dsimp only
    split
    · next hcontrol =>
      have hlt : b.toNat < 32 := UInt8.lt_iff_toNat_lt.mp hcontrol
      change scanChars (byte '\\' :: byte 'u' :: byte '0' :: byte '0' ::
        hexDigit (b.toNat / 16) :: hexDigit b.toNat :: rest) = _
      rw [scanChars.eq_def]
      dsimp only
      rw [if_neg (by decide), if_pos rfl, if_pos rfl, hex4?_control hcontrol]
      dsimp only
      rw [if_neg (by simp; omega), if_neg (by simp; omega), encode_control hcontrol]
      rfl
    · next hcontrol =>
      obtain ⟨hquote, hback⟩ := ne_of_escapeMark?_eq_none hmark
      change scanChars (b :: rest) = _
      rw [scanChars.eq_def]
      dsimp only
      rw [if_neg hquote, if_neg hback, if_neg hcontrol]

/-- A written string is read up to its closing quote. -/
theorem scanChars_quoted (s rest : Bytes) :
    scanChars (s.flatMap escape ++ byte '"' :: rest) = some (s, rest) := by
  induction s with
  | nil =>
    change scanChars (byte '"' :: rest) = _
    rw [scanChars.eq_def]
    dsimp only
    rw [if_pos rfl]
  | cons b s ih =>
    rw [List.flatMap_cons, List.append_assoc, scanChars_escape, ih]
    rfl

/-- **A string that is UTF-8 is read as it was written.** -/
theorem scanString_quoted {s : Bytes} (h : Utf8.valid s = true) (rest : Bytes) :
    scanString (s.flatMap escape ++ byte '"' :: rest) = some (s, rest) := by
  rw [scanString, scanChars_quoted, Option.bind_some]
  exact if_pos h

end Telemetry.Json

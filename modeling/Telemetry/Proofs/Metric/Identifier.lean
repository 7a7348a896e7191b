import Mathlib.Data.Option.Basic
import Telemetry.Metric.Identifier
import Telemetry.Proofs.Bytes.Cutting
import Telemetry.Utf8

/-!
# Metric names read and written

A valid identifier is read back from its full name (`parse?_text`), and what was read is written as it
was unless its unit was left out (`text_of_parse?`).  So a full name determines its parts, the kind
among them.  Names and tag keys are ASCII, hence UTF-8.
-/

namespace Telemetry

open Bytes

namespace Utf8

/-- A text of ASCII bytes is UTF-8. -/
theorem valid_of_ascii {s : Bytes} (h : ∀ b ∈ s, b ≤ 0x7f) : valid s = true := by
  rw [valid, beq_iff_eq]
  induction s with
  | nil => rfl
  | cons b rest ih =>
    obtain ⟨hb, hrest⟩ := List.forall_mem_cons.mp h
    have hstep : step .lead b = some .lead := if_pos hb
    rw [run, hstep, Option.bind_some, ih hrest]

end Utf8

namespace Kind

theorem ofLetter?_letter (k : Kind) : ofLetter? k.letter = some k := by
  cases k <;> decide

theorem letter_of_ofLetter? {b : UInt8} {k : Kind} (h : ofLetter? b = some k) : k.letter = b := by
  simpa using List.find?_some h

theorem letter_ne_at (k : Kind) : k.letter ≠ byte '@' := by
  cases k <;> decide

theorem letter_ascii (k : Kind) : k.letter ≤ 0x7f := by
  cases k <;> decide

end Kind

namespace Identifier

/-! ## The classes of bytes -/

section Classes

variable {b : UInt8} {s : Bytes}

theorem le_of_isAlnum (h : isAlnum b = true) : b ≤ 0x7f := by
  simp only [isAlnum, isAlpha, isLower, isUpper, isDigit, Bool.or_eq_true, Bool.and_eq_true,
    decide_eq_true_eq] at h
  rcases h with (⟨-, h⟩ | ⟨-, h⟩) | ⟨-, h⟩ <;> exact UInt8.le_trans h (by decide)

theorem le_of_isNameByte (h : isNameByte b = true) : b ≤ 0x7f := by
  simp only [isNameByte, Bool.or_eq_true, beq_iff_eq] at h
  rcases h with (((h | rfl) | rfl) | rfl) | rfl
  · exact le_of_isAlnum h
  all_goals decide

theorem le_of_isWord (h : isWord b = true) : b ≤ 0x7f := by
  simp only [isWord, Bool.or_eq_true, beq_iff_eq] at h
  rcases h with h | rfl
  · exact le_of_isAlnum h
  · decide

theorem validSpace_mem (h : validSpace s = true) (hb : b ∈ s) : isLower b = true := by
  simp only [validSpace, Bool.and_eq_true, List.all_eq_true] at h
  exact h.2 b hb

theorem validName_mem (h : validName s = true) (hb : b ∈ s) : isNameByte b = true := by
  simp only [validName, Bool.and_eq_true, List.all_eq_true] at h
  exact h.2 b hb

theorem validUnit_mem (h : validUnit s = true) (hb : b ∈ s) : isWord b = true := by
  simp only [validUnit, Bool.and_eq_true, List.all_eq_true] at h
  exact h.2 b hb

theorem validTagKey_utf8 (h : validTagKey s = true) : Utf8.valid s = true := by
  simp only [validTagKey, Bool.and_eq_true, List.all_eq_true] at h
  apply Utf8.valid_of_ascii
  intro b hb
  exact le_of_isNameByte (h.2 b hb)

theorem slash_not_mem_space (h : validSpace s = true) : byte '/' ∉ s := by
  intro hb
  exact absurd (validSpace_mem h hb) (by decide)

theorem at_not_mem_space (h : validSpace s = true) : byte '@' ∉ s := by
  intro hb
  exact absurd (validSpace_mem h hb) (by decide)

theorem at_not_mem_unit (h : validUnit s = true) : byte '@' ∉ s := by
  intro hb
  exact absurd (validUnit_mem h hb) (by decide)

end Classes

/-! ## Reading and writing -/

variable {m : Identifier} {s : Bytes}

theorem valid_iff : m.valid = true ↔
    validSpace m.space = true ∧ validName m.name = true ∧ validUnit m.unit = true := by
  simp [valid, and_assoc]

theorem text_utf8 (h : m.valid = true) : Utf8.valid m.text = true := by
  obtain ⟨hspace, hname, hunit⟩ := valid_iff.mp h
  apply Utf8.valid_of_ascii
  intro b hb
  simp only [text, List.cons_append, List.append_assoc, List.mem_cons, List.mem_append] at hb
  rcases hb with rfl | rfl | hb | rfl | hb | rfl | hb
  · exact m.kind.letter_ascii
  · decide
  · exact le_of_isAlnum (by simp [isAlnum, isAlpha, validSpace_mem hspace hb])
  · decide
  · exact le_of_isNameByte (validName_mem hname hb)
  · decide
  · exact le_of_isWord (validUnit_mem hunit hb)

/-- What the reader finds: a letter of a kind, a colon, and a namespace before the first slash. -/
theorem parse?_eq_some_iff : parse? s = some m ↔
    ∃ rest, s = m.kind.letter :: byte ':' :: (m.space ++ byte '/' :: rest) ∧
      splitUnit rest = (m.name, m.unit) ∧ m.valid = true := by
  constructor
  · intro h
    unfold parse? at h
    split at h
    · next letter colon rest =>
      obtain ⟨k, hk, h⟩ := Option.bind_eq_some_iff.mp h
      obtain ⟨_, hcolon, h⟩ := Option.bind_eq_some_iff.mp h
      obtain ⟨⟨space, tail⟩, hcut, h⟩ := Option.bind_eq_some_iff.mp h
      obtain ⟨_, hvalid, h⟩ := Option.bind_eq_some_iff.mp h
      obtain rfl := Option.some.inj h
      obtain ⟨rfl, -⟩ := cut?_eq_some_iff.mp hcut
      have hcolon : colon = byte ':' := (Option.guard_eq_some' _).mp hcolon
      refine ⟨tail, ?_, rfl, (Option.guard_eq_some' _).mp hvalid⟩
      rw [Kind.letter_of_ofLetter? hk, hcolon]
    · cases h
  · rintro ⟨rest, rfl, hsplit, hvalid⟩
    have hcut : cut? (byte '/') (m.space ++ byte '/' :: rest) = some (m.space, rest) :=
      cut?_eq_some_iff.mpr ⟨rfl, slash_not_mem_space (valid_iff.mp hvalid).1⟩
    have hguard : (guard (m.valid = true) : Option Unit) = some () :=
      (Option.guard_eq_some' ()).mpr hvalid
    simp only [parse?, Kind.ofLetter?_letter, hcut, hsplit, Option.bind_eq_bind, Option.bind_some,
      hguard]
    rfl

/-- **A valid identifier is read back from its full name.** -/
theorem parse?_text (h : m.valid = true) : parse? m.text = some m := by
  refine parse?_eq_some_iff.mpr ⟨m.name ++ byte '@' :: m.unit, by simp [text], ?_, h⟩
  have hcut : cutLast? (byte '@') (m.name ++ byte '@' :: m.unit) = some (m.name, m.unit) :=
    cutLast?_eq_some_iff.mpr ⟨rfl, at_not_mem_unit (valid_iff.mp h).2.2⟩
  rw [splitUnit, hcut, Option.getD_some]

theorem valid_of_parse? (h : parse? s = some m) : m.valid = true := by
  obtain ⟨_, -, -, hvalid⟩ := parse?_eq_some_iff.mp h
  exact hvalid

/-- **A name that gives its unit is written as it was read.** -/
theorem text_of_parse? (h : parse? s = some m) (hunit : byte '@' ∈ s) : m.text = s := by
  obtain ⟨rest, rfl, hsplit, hvalid⟩ := parse?_eq_some_iff.mp h
  have hat : byte '@' ∈ rest := by
    simp only [List.mem_cons, List.mem_append] at hunit
    rcases hunit with hunit | hunit | hunit | hunit | hunit
    · exact absurd hunit.symm m.kind.letter_ne_at
    · exact absurd hunit (by decide)
    · exact absurd hunit (at_not_mem_space (valid_iff.mp hvalid).1)
    · exact absurd hunit (by decide)
    · exact hunit
  cases hcut : cutLast? (byte '@') rest with
  | none =>
    -- the last separator is the first one of the reversed text
    have hnone : cut? (byte '@') rest.reverse = none := by simpa [cutLast?] using hcut
    exact absurd (List.mem_reverse.mpr hat) (cut?_eq_none_iff.mp hnone)
  | some p =>
    obtain ⟨hrest, -⟩ := cutLast?_eq_some_iff.mp (hcut : _ = some (p.1, p.2))
    rw [splitUnit, hcut, Option.getD_some] at hsplit
    simp [text, hrest, hsplit]

/-- The letter in front of a full name is that of the kind. -/
theorem kind_of_parse? {letter : UInt8} {rest : Bytes} {k : Kind} (h : parse? (letter :: rest) = some m)
    (hk : k.letter = letter) : m.kind = k := by
  obtain ⟨_, hs, -, -⟩ := parse?_eq_some_iff.mp h
  have hletter : m.kind.letter = k.letter := by rw [hk, (List.cons.inj hs).1]
  have hkind : Kind.ofLetter? m.kind.letter = Kind.ofLetter? k.letter := by rw [hletter]
  rw [Kind.ofLetter?_letter, Kind.ofLetter?_letter] at hkind
  exact Option.some.inj hkind

end Identifier

end Telemetry

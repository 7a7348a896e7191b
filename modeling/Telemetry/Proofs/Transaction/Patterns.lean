import Mathlib.Algebra.BigOperators.Group.List.Basic
import Mathlib.Computability.Language
import Telemetry.Proofs.Bytes.Cutting
import Telemetry.Transaction.Name

/-!
# The patterns of variable segments

What makes a segment variable is written here as regular languages of bytes: `uuid`, `dateTime` and
`valueWord`.  The readers of names decide them although they never go back: whatever follows an optional
part cannot begin as that part does, so that taking the part whenever it is there loses nothing
(`mem_star_mul`, `afterSeconds_iff`).
-/

namespace Telemetry.TransactionName

open Bytes
open scoped Computability

/-! ## Languages -/

/-- The texts of one byte of a class. -/
def oneOf (p : UInt8 → Bool) : Language UInt8 := {x | ∃ b, p b = true ∧ x = [b]}

def digit : Language UInt8 := oneOf isDigit

def hex : Language UInt8 := oneOf isHex

/-- Hexadecimal digits in groups of 8, 4, 4, 4 and 12. -/
def uuid : Language UInt8 :=
  hex ^ 8 * {ascii "-"} * hex ^ 4 * {ascii "-"} * hex ^ 4 * {ascii "-"} * hex ^ 4 * {ascii "-"} * hex ^ 12

/-- Nothing, or a point and digits. -/
def fraction : Language UInt8 := 1 + {ascii "."} * digit * digit∗

/-- Nothing, or the seconds with their fraction. -/
def seconds : Language UInt8 := 1 + {ascii ":"} * digit ^ 2 * fraction

/-- The letter for no offset, or an offset in hours and minutes. -/
def zone : Language UInt8 :=
  {ascii "Z"} + ({ascii "+"} + {ascii "-"}) * digit ^ 2 * {ascii ":"} * digit ^ 2

/-- A date and a time of day with its zone. -/
def dateTime : Language UInt8 :=
  digit ^ 4 * {ascii "-"} * digit ^ 2 * {ascii "-"} * digit ^ 2 * {ascii "T"} * digit ^ 2 * {ascii ":"} *
    digit ^ 2 * seconds * zone

/-- A hash of 40 or 32 hexadecimal digits, a hexadecimal literal, or a number of two digits or more. -/
def valueWord : Language UInt8 :=
  hex ^ 40 + hex ^ 32 + {ascii "0"} * ({ascii "x"} + {ascii "X"}) * hex * hex∗ + digit ^ 2 * digit∗

/-! ## Places -/

/-- The text occurs in the segment with no letter, digit or underscore next to it. -/
def StandsApart (segment x : Bytes) : Prop :=
  ∃ before after, segment = before ++ x ++ after ∧
    (∀ b ∈ before.getLast?, isWord b = false) ∧ ∀ b ∈ after.head?, isWord b = false

/-- The text is a maximal run of letters, digits and underscores. -/
structure IsRun (segment x : Bytes) : Prop where
  ne_nil : x ≠ []
  word : ∀ b ∈ x, isWord b = true
  apart : StandsApart segment x

/-- One of the patterns occurs in the segment: a UUID apart from words, a date anywhere, or a value as a
whole word. -/
def Varies (segment : Bytes) : Prop :=
  (∃ x ∈ uuid, StandsApart segment x) ∨ (∃ x ∈ dateTime, x <:+: segment) ∨
    ∃ x ∈ valueWord, IsRun segment x

variable {p : UInt8 → Bool} {L M : Language UInt8} {b c : UInt8} {s t w x rest : Bytes} {n : Nat}

/-! ## Members of products -/

theorem singleton_eq_oneOf (c : UInt8) : ({[c]} : Language UInt8) = oneOf (c == ·) := by
  ext x
  constructor
  · intro hx
    exact ⟨c, beq_self_eq_true c, hx⟩
  · rintro ⟨b, hb, rfl⟩
    rw [beq_iff_eq.mp hb]
    rfl

theorem not_nil_mem_oneOf_mul : [] ∉ oneOf p * M := by
  rintro ⟨_, ⟨b, -, rfl⟩, y, -, h⟩
  cases h

theorem cons_mem_oneOf_mul : b :: t ∈ oneOf p * M ↔ p b = true ∧ t ∈ M := by
  rw [Language.mem_mul]
  constructor
  · rintro ⟨_, ⟨c, hc, rfl⟩, y, hy, h⟩
    obtain ⟨rfl, rfl⟩ := List.cons.inj h
    exact ⟨hc, hy⟩
  · rintro ⟨hb, ht⟩
    exact ⟨[b], ⟨b, hb, rfl⟩, t, ht, rfl⟩

theorem mem_oneOf_pow : x ∈ oneOf p ^ n ↔ x.length = n ∧ ∀ b ∈ x, p b = true := by
  induction n generalizing x with
  | zero => simp +contextual
  | succ n ih =>
    rw [pow_succ']
    cases x with
    | nil => simp [not_nil_mem_oneOf_mul]
    | cons b x =>
      rw [cons_mem_oneOf_mul, ih, List.forall_mem_cons]
      simp only [List.length_cons, Nat.add_right_cancel_iff]
      tauto

theorem star_mul : (oneOf p)∗ * M = M + oneOf p * ((oneOf p)∗ * M) := by
  nth_rewrite 1 [← Language.one_add_self_mul_kstar_eq_kstar]
  rw [add_mul, one_mul, mul_assoc]

/-- Before what cannot begin with a byte of a class stand all bytes of the class. -/
theorem mem_star_mul (hM : ∀ b t, b :: t ∈ M → p b = false) :
    t ∈ (oneOf p)∗ * M ↔ t.dropWhile p ∈ M := by
  induction t with
  | nil =>
    rw [star_mul, Language.mem_add]
    simp [not_nil_mem_oneOf_mul]
  | cons b t ih =>
    rw [star_mul, Language.mem_add, cons_mem_oneOf_mul, ih]
    by_cases hb : p b = true
    · have hnot : b :: t ∉ M := by
        intro hmem
        simp [hM b t hmem] at hb
      simp [hb, hnot]
    · simp [hb]

theorem mem_star : x ∈ (oneOf p)∗ ↔ ∀ b ∈ x, p b = true := by
  have hone : ∀ b t, b :: t ∈ (1 : Language UInt8) → p b = false := by
    intro b t h
    cases h
  rw [← mul_one (oneOf p)∗, mem_star_mul hone, Language.mem_one, List.dropWhile_eq_nil_iff]

/-! ## Shapes -/

/-- Whether a byte of a shape stands for a byte. -/
def fits (c b : UInt8) : Bool :=
  if c = byte 'd' then isDigit b else if c = byte 'h' then isHex b else c == b

/-- The texts of a shape. -/
def shaped (shape : Bytes) : Language UInt8 := (shape.map fun c => oneOf (fits c)).prod

theorem shaped_append (shape more : Bytes) : shaped (shape ++ more) = shaped shape * shaped more := by
  simp [shaped]

theorem shaped_digits (n : Nat) : shaped (List.replicate n (byte 'd')) = digit ^ n := by
  rw [shaped, List.map_replicate, List.prod_replicate]
  rfl

theorem shaped_hex (n : Nat) : shaped (List.replicate n (byte 'h')) = hex ^ n := by
  rw [shaped, List.map_replicate, List.prod_replicate]
  rfl

/-- Every other byte stands for itself. -/
theorem fits_literal (hd : c ≠ byte 'd') (hh : c ≠ byte 'h') : fits c = (c == ·) := by
  funext b
  simp [fits, hd, hh]

theorem shaped_literal (hd : c ≠ byte 'd') (hh : c ≠ byte 'h') : shaped [c] = {[c]} := by
  rw [singleton_eq_oneOf, shaped, List.map_singleton, List.prod_singleton, fits_literal hd hh]

theorem afterShape?_cons (c : UInt8) (shape : Bytes) (b : UInt8) (t : Bytes) :
    afterShape? (c :: shape) (b :: t) = if fits c b = true then afterShape? shape t else none := rfl

/-- **What follows a shape** is what the reader of shapes finds. -/
theorem mem_shaped_mul {shape : Bytes} :
    t ∈ shaped shape * M ↔ ∃ rest, afterShape? shape t = some rest ∧ rest ∈ M := by
  induction shape generalizing t with
  | nil => simp [shaped, afterShape?]
  | cons c shape ih =>
    have hcons : shaped (c :: shape) = oneOf (fits c) * shaped shape := by simp [shaped]
    rw [hcons, mul_assoc]
    cases t with
    | nil => simp [not_nil_mem_oneOf_mul, afterShape?]
    | cons b t =>
      rw [cons_mem_oneOf_mul, ih, afterShape?_cons]
      by_cases hb : fits c b = true <;> simp [hb]

theorem uuid_eq : uuid = shaped uuidShape := by
  have hshape : uuidShape =
      List.replicate 8 (byte 'h') ++ [byte '-'] ++ List.replicate 4 (byte 'h') ++ [byte '-'] ++
        List.replicate 4 (byte 'h') ++ [byte '-'] ++ List.replicate 4 (byte 'h') ++ [byte '-'] ++
        List.replicate 12 (byte 'h') := by decide
  have hdash : shaped [byte '-'] = {ascii "-"} := shaped_literal (by decide) (by decide)
  simp only [hshape, shaped_append, shaped_hex, hdash]
  rfl

theorem shaped_hours : shaped (ascii "dd:dd") = digit ^ 2 * {ascii ":"} * digit ^ 2 := by
  have hshape : ascii "dd:dd" =
      List.replicate 2 (byte 'd') ++ [byte ':'] ++ List.replicate 2 (byte 'd') := by decide
  have hcolon : shaped [byte ':'] = {ascii ":"} := shaped_literal (by decide) (by decide)
  simp only [hshape, shaped_append, shaped_digits, hcolon]

theorem dateTime_eq : dateTime = shaped (ascii "dddd-dd-ddTdd:dd") * (seconds * zone) := by
  have hshape : ascii "dddd-dd-ddTdd:dd" =
      List.replicate 4 (byte 'd') ++ [byte '-'] ++ List.replicate 2 (byte 'd') ++ [byte '-'] ++
        List.replicate 2 (byte 'd') ++ [byte 'T'] ++ List.replicate 2 (byte 'd') ++ [byte ':'] ++
        List.replicate 2 (byte 'd') := by decide
  have hdash : shaped [byte '-'] = {ascii "-"} := shaped_literal (by decide) (by decide)
  have hletter : shaped [byte 'T'] = {ascii "T"} := shaped_literal (by decide) (by decide)
  have hcolon : shaped [byte ':'] = {ascii ":"} := shaped_literal (by decide) (by decide)
  simp only [hshape, shaped_append, shaped_digits, hdash, hletter, hcolon, dateTime, mul_assoc]

/-! ## Identifiers -/

theorem startsWithUuid_iff : startsWithUuid t = true ↔
    ∃ x ∈ uuid, ∃ after, t = x ++ after ∧ ∀ b ∈ after.head?, isWord b = false := by
  let apart : Language UInt8 := {after | ∀ b ∈ after.head?, isWord b = false}
  have hmem : t ∈ uuid * apart ↔
      ∃ x ∈ uuid, ∃ after, t = x ++ after ∧ ∀ b ∈ after.head?, isWord b = false := by
    rw [Language.mem_mul]
    constructor
    · rintro ⟨x, hx, after, hafter, rfl⟩
      exact ⟨x, hx, after, rfl, hafter⟩
    · rintro ⟨x, hx, after, rfl, hafter⟩
      exact ⟨x, hx, after, hafter, rfl⟩
  rw [← hmem, uuid_eq, mem_shaped_mul, startsWithUuid]
  cases h : afterShape? uuidShape t with
  | none => simp
  | some rest =>
    cases rest with
    | nil =>
      refine iff_of_true rfl ⟨[], rfl, ?_⟩
      intro b hb
      cases hb
    | cons b rest =>
      constructor
      · intro hb
        refine ⟨b :: rest, rfl, ?_⟩
        intro c hc
        obtain rfl := Option.some.inj hc
        simpa using hb
      · rintro ⟨_, hrest, hapart⟩
        obtain rfl := Option.some.inj hrest
        simpa using hapart b rfl

theorem hasUuid_iff {wordBefore : Bool} : hasUuid wordBefore s = true ↔
    ∃ before x after, s = before ++ x ++ after ∧ x ∈ uuid ∧
      before.getLast?.elim wordBefore isWord = false ∧ ∀ b ∈ after.head?, isWord b = false := by
  induction s generalizing wordBefore with
  | nil =>
    refine iff_of_false Bool.false_ne_true ?_
    rintro ⟨before, x, after, hs, hx, -, hafter⟩
    obtain ⟨hbefore, rfl⟩ := List.append_eq_nil_iff.mp hs.symm
    obtain ⟨-, rfl⟩ := List.append_eq_nil_iff.mp hbefore
    have hstart : startsWithUuid [] = true := startsWithUuid_iff.mpr ⟨[], hx, [], rfl, hafter⟩
    exact absurd hstart (by decide)
  | cons b s ih =>
    rw [hasUuid, Bool.or_eq_true, Bool.and_eq_true, startsWithUuid_iff, ih]
    constructor
    · rintro (⟨hword, x, hx, after, hs, hafter⟩ | ⟨before, x, after, rfl, hx, hbefore, hafter⟩)
      · exact ⟨[], x, after, hs, hx, by simpa using hword, hafter⟩
      · refine ⟨b :: before, x, after, rfl, hx, ?_, hafter⟩
        rw [List.getLast?_cons]
        cases h : before.getLast? <;> simpa [h] using hbefore
    · rintro ⟨before, x, after, hs, hx, hbefore, hafter⟩
      cases before with
      | nil => exact Or.inl ⟨by simpa using hbefore, x, hx, after, hs, hafter⟩
      | cons c before =>
        obtain ⟨rfl, rfl⟩ := List.cons.inj hs
        refine Or.inr ⟨before, x, after, rfl, hx, ?_, hafter⟩
        rw [List.getLast?_cons] at hbefore
        cases h : before.getLast? <;> simpa [h] using hbefore

theorem hasUuid_segment_iff : hasUuid false s = true ↔ ∃ x ∈ uuid, StandsApart s x := by
  rw [hasUuid_iff]
  constructor
  · rintro ⟨before, x, after, rfl, hx, hbefore, hafter⟩
    refine ⟨x, hx, before, after, rfl, ?_, hafter⟩
    intro b hb
    simpa [Option.mem_def.mp hb] using hbefore
  · rintro ⟨x, hx, before, after, rfl, hbefore, hafter⟩
    refine ⟨before, x, after, rfl, hx, ?_, hafter⟩
    cases h : before.getLast? with
    | none => rfl
    | some b => exact hbefore b h

/-! ## Dates -/

theorem anywhere_iff {q : Bytes → Bool} : anywhere q s = true ↔ ∃ t, t <:+ s ∧ q t = true := by
  induction s with
  | nil => simp [anywhere]
  | cons b s ih =>
    rw [anywhere, Bool.or_eq_true, ih]
    simp only [List.suffix_cons_iff, or_and_right, exists_or, exists_eq_left]

theorem mem_mul_top : t ∈ L * ⊤ ↔ ∃ x ∈ L, x <+: t := by
  rw [Language.mem_mul]
  constructor
  · rintro ⟨x, hx, rest, -, rfl⟩
    exact ⟨x, hx, List.prefix_append x rest⟩
  · rintro ⟨x, hx, rest, rfl⟩
    exact ⟨x, hx, rest, trivial, rfl⟩

theorem startsWithZone_iff : startsWithZone t = true ↔ t ∈ zone * ⊤ := by
  have hzone : zone * ⊤ = oneOf (byte 'Z' == ·) * ⊤ +
      (oneOf (byte '+' == ·) * (shaped (ascii "dd:dd") * ⊤) +
        oneOf (byte '-' == ·) * (shaped (ascii "dd:dd") * ⊤)) := by
    simp only [← singleton_eq_oneOf, shaped_hours, zone, add_mul, mul_assoc]
    rfl
  rw [hzone, Language.mem_add, Language.mem_add]
  cases t with
  | nil => simp [startsWithZone, not_nil_mem_oneOf_mul]
  | cons b t =>
    have htop : t ∈ (⊤ : Language UInt8) := trivial
    simp only [startsWithZone, cons_mem_oneOf_mul, mem_shaped_mul, Bool.or_eq_true, Bool.and_eq_true,
      beq_iff_eq, htop, and_true, Option.isSome_iff_exists, or_and_right, eq_comm (a := b)]
    have hany : ∀ o : Option Bytes, (∃ r, o = some r ∧ r ∈ (⊤ : Language UInt8)) ↔ ∃ r, o = some r := by
      intro o
      exact exists_congr fun r => and_iff_left trivial
    rw [hany]

/-- No zone begins as seconds, their fraction or its digits do. -/
theorem not_mem_zone (h : b :: t ∈ zone * ⊤) : b ≠ byte ':' ∧ b ≠ byte '.' ∧ isDigit b = false := by
  have hstart := startsWithZone_iff.mpr h
  simp only [startsWithZone, Bool.or_eq_true, Bool.and_eq_true, beq_iff_eq] at hstart
  rcases hstart with rfl | ⟨rfl | rfl, -⟩ <;> decide

theorem afterFraction_iff : (∃ rest, afterFraction? t = some rest ∧ rest ∈ zone * ⊤) ↔
    t ∈ fraction * (zone * ⊤) := by
  have hfraction : fraction * (zone * ⊤) =
      zone * ⊤ + oneOf (byte '.' == ·) * (digit * (digit∗ * (zone * ⊤))) := by
    rw [← singleton_eq_oneOf, fraction, add_mul, one_mul, mul_assoc, mul_assoc]
    rfl
  rw [hfraction, Language.mem_add]
  cases t with
  | nil => simp [afterFraction?, not_nil_mem_oneOf_mul]
  | cons b t =>
    rw [cons_mem_oneOf_mul, beq_iff_eq]
    by_cases hb : b = byte '.'
    · subst hb
      have hnot : byte '.' :: t ∉ zone * ⊤ := fun h => (not_mem_zone h).2.1 rfl
      simp only [hnot, false_or, true_and, afterFraction?, if_true]
      cases t with
      | nil => simp [digit, not_nil_mem_oneOf_mul]
      | cons d t =>
        rw [digit, cons_mem_oneOf_mul, mem_star_mul fun b t h => (not_mem_zone h).2.2]
        by_cases hd : isDigit d = true <;> simp [hd]
    · simp [afterFraction?, hb, Ne.symm hb]

theorem afterSeconds_iff : (∃ rest, afterSeconds? t = some rest ∧ rest ∈ zone * ⊤) ↔
    t ∈ seconds * (zone * ⊤) := by
  have hseconds : seconds * (zone * ⊤) =
      zone * ⊤ + oneOf (byte ':' == ·) * (shaped (ascii "dd") * (fraction * (zone * ⊤))) := by
    have hshape : shaped (ascii "dd") = digit ^ 2 := shaped_digits 2
    rw [← singleton_eq_oneOf, hshape, seconds, add_mul, one_mul, mul_assoc, mul_assoc]
    rfl
  rw [hseconds, Language.mem_add]
  cases t with
  | nil => simp [afterSeconds?, not_nil_mem_oneOf_mul]
  | cons b t =>
    rw [cons_mem_oneOf_mul, beq_iff_eq]
    by_cases hb : b = byte ':'
    · subst hb
      have hnot : byte ':' :: t ∉ zone * ⊤ := fun h => (not_mem_zone h).1 rfl
      simp only [hnot, false_or, true_and, afterSeconds?, if_true, mem_shaped_mul, ← afterFraction_iff,
        Option.bind_eq_some_iff]
      constructor
      · rintro ⟨rest, ⟨r, hr, hrest⟩, hzone⟩
        exact ⟨r, hr, rest, hrest, hzone⟩
      · rintro ⟨r, hr, rest, hrest, hzone⟩
        exact ⟨rest, ⟨r, hr, hrest⟩, hzone⟩
    · simp [afterSeconds?, hb, Ne.symm hb]

theorem startsWithTime_iff : startsWithTime t = true ↔ t ∈ dateTime * ⊤ := by
  have hread : startsWithTime t = true ↔
      ∃ rest, (afterShape? (ascii "dddd-dd-ddTdd:dd") t).bind afterSeconds? = some rest ∧
        rest ∈ zone * ⊤ := by
    rw [startsWithTime]
    cases (afterShape? (ascii "dddd-dd-ddTdd:dd") t).bind afterSeconds? with
    | none => simp
    | some rest => simp [startsWithZone_iff]
  rw [hread, dateTime_eq, mul_assoc, mul_assoc, mem_shaped_mul]
  simp only [← afterSeconds_iff, Option.bind_eq_some_iff]
  constructor
  · rintro ⟨rest, ⟨r, hr, hrest⟩, hzone⟩
    exact ⟨r, hr, rest, hrest, hzone⟩
  · rintro ⟨r, hr, rest, hrest, hzone⟩
    exact ⟨rest, ⟨r, hr, hrest⟩, hzone⟩

theorem anywhere_startsWithTime_iff :
    anywhere startsWithTime s = true ↔ ∃ x ∈ dateTime, x <:+: s := by
  rw [anywhere_iff]
  simp only [startsWithTime_iff, mem_mul_top, List.infix_iff_prefix_suffix]
  constructor
  · rintro ⟨t, ht, x, hx, hprefix⟩
    exact ⟨x, hx, t, hprefix, ht⟩
  · rintro ⟨x, hx, t, hprefix, ht⟩
    exact ⟨t, ht, x, hx, hprefix⟩

/-! ## Values -/

theorem lowerByte_eq_x (b : UInt8) : lowerByte b = byte 'x' ↔ b = byte 'x' ∨ b = byte 'X' := by
  unfold lowerByte isUpper
  split
  · next h =>
    simp only [Bool.and_eq_true, decide_eq_true_eq, UInt8.le_iff_toNat_le] at h
    simp only [← UInt8.toNat_inj, UInt8.toNat_add]
    change 65 ≤ b.toNat ∧ b.toNat ≤ 90 at h
    change (b.toNat + 32) % 256 = 120 ↔ b.toNat = 120 ∨ b.toNat = 88
    omega
  · next h =>
    have hne : b ≠ byte 'X' := by
      rintro rfl
      exact h (by decide)
    simp [hne]

theorem mem_literal_iff : w ∈ {ascii "0"} * ({ascii "x"} + {ascii "X"}) * hex * hex∗ ↔
    (match w with
      | zero :: x :: digits =>
        zero == byte '0' && lowerByte x == byte 'x' && !digits.isEmpty && digits.all isHex
      | _ => false) = true := by
  have hlanguage : {ascii "0"} * ({ascii "x"} + {ascii "X"}) * hex * hex∗ =
      oneOf (byte '0' == ·) *
        (oneOf (byte 'x' == ·) * (hex * hex∗) + oneOf (byte 'X' == ·) * (hex * hex∗)) := by
    rw [← singleton_eq_oneOf, ← singleton_eq_oneOf, ← singleton_eq_oneOf, mul_assoc, mul_assoc, ← add_mul]
    rfl
  have hdigits : ∀ digits, digits ∈ hex * hex∗ ↔ digits.isEmpty = false ∧ digits.all isHex = true := by
    intro digits
    cases digits with
    | nil => simp [hex, not_nil_mem_oneOf_mul]
    | cons b digits => simp [hex, cons_mem_oneOf_mul, mem_star]
  rw [hlanguage]
  cases w with
  | nil => simp [not_nil_mem_oneOf_mul]
  | cons zero w =>
    cases w with
    | nil =>
      rw [cons_mem_oneOf_mul, Language.mem_add]
      simp [not_nil_mem_oneOf_mul]
    | cons x digits =>
      simp only [cons_mem_oneOf_mul, Language.mem_add, hdigits, beq_iff_eq, Bool.and_eq_true,
        Bool.not_eq_true', lowerByte_eq_x, eq_comm (b := zero), eq_comm (b := x)]
      tauto

theorem mem_number_iff : w ∈ digit ^ 2 * digit∗ ↔ (2 ≤ w.length && w.all isDigit) = true := by
  rw [pow_two, mul_assoc]
  cases w with
  | nil => simp [digit, not_nil_mem_oneOf_mul]
  | cons b w =>
    cases w with
    | nil => simp [digit, cons_mem_oneOf_mul, not_nil_mem_oneOf_mul]
    | cons c w => simp [digit, cons_mem_oneOf_mul, mem_star]

theorem isValueWord_iff : isValueWord w = true ↔ w ∈ valueWord := by
  have hhash : ∀ n, w ∈ hex ^ n ↔ (w.length == n && w.all isHex) = true := by
    intro n
    rw [hex, mem_oneOf_pow, Bool.and_eq_true, beq_iff_eq, List.all_eq_true]
  rw [valueWord, Language.mem_add, Language.mem_add, Language.mem_add, hhash, hhash, mem_literal_iff,
    mem_number_iff, ← Bool.or_eq_true, ← Bool.or_eq_true, ← Bool.or_eq_true]
  exact Iff.rfl

/-- **The words of a segment** are its maximal runs. -/
theorem mem_words_iff : w ∈ words s ↔ IsRun s w := by
  obtain ⟨later, hsplit, hlater⟩ := exists_splitWhere_eq (fun b => !isWord b) s
  have hfirst : w = s.takeWhile (fun b => !!isWord b) ↔ _ := eq_takeWhile_iff
  rw [words, List.mem_filter, hsplit, List.mem_cons, hlater, hfirst]
  simp only [Bool.not_eq_false', Bool.not_eq_true', List.isEmpty_eq_false_iff]
  constructor
  · rintro ⟨⟨after, hs, hword, hafter⟩ | ⟨before, after, hs, hword, ⟨c, hc, hlast⟩, hafter⟩, hne⟩
    · exact ⟨hne, hword, [], after, hs, nofun, hafter⟩
    · refine ⟨hne, hword, before, after, hs, ?_, hafter⟩
      intro b hb
      rw [Option.mem_unique hb hc]
      exact hlast
  · rintro ⟨hne, hword, before, after, hs, hbefore, hafter⟩
    refine ⟨?_, hne⟩
    cases h : before.getLast? with
    | none =>
      obtain rfl := List.getLast?_eq_none_iff.mp h
      exact Or.inl ⟨after, hs, hword, hafter⟩
    | some c => exact Or.inr ⟨before, after, hs, hword, ⟨c, h, hbefore c h⟩, hafter⟩

/-! ## Segments -/

/-- **A segment is variable exactly if one of the patterns occurs in it.** -/
theorem isVariable_iff : isVariable s = true ↔ Varies s := by
  rw [isVariable, Bool.or_eq_true, Bool.or_eq_true, hasUuid_segment_iff, anywhere_startsWithTime_iff,
    List.any_eq_true, or_assoc]
  simp only [mem_words_iff, isValueWord_iff, Varies]
  simp only [and_comm]

end Telemetry.TransactionName

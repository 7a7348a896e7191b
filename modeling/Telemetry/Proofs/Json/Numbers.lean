import Telemetry.Json.Reader
import Telemetry.Json.Writer
import Telemetry.Proofs.Numeral.Writing

/-!
# Written numbers

The reader takes a number apart as it was spelled (`scanNumber_text`), provided that what follows can
be no part of it.  So words, negative integers and finite doubles are read as they were written.
-/

namespace Telemetry.Json

open Bytes

/-- What may follow a value: the end of the text, or what ends an item or a member. -/
def Ends (rest : Bytes) : Prop :=
  ∀ b ∈ rest.head?, b = byte ',' ∨ b = byte ']' ∨ b = byte '\x7d'

theorem Ends.nil : Ends [] := by
  intro b hb
  cases hb

theorem Ends.cons {b : UInt8} (h : b = byte ',' ∨ b = byte ']' ∨ b = byte '\x7d') (rest : Bytes) :
    Ends (b :: rest) := by
  rintro c ⟨rfl⟩
  exact h

/-! ## Digits -/

section Digits

variable {digits rest : Bytes}

theorem takeWhile_digits (hd : ∀ b ∈ digits, isDigit b = true)
    (hr : ∀ b ∈ rest.head?, isDigit b = false) : (digits ++ rest).takeWhile isDigit = digits := by
  rw [List.takeWhile_append_of_pos hd]
  cases rest with
  | nil => rw [List.takeWhile_nil, List.append_nil]
  | cons b rest => rw [List.takeWhile_cons_of_neg (by simpa using hr b rfl), List.append_nil]

theorem dropWhile_digits (hd : ∀ b ∈ digits, isDigit b = true)
    (hr : ∀ b ∈ rest.head?, isDigit b = false) : (digits ++ rest).dropWhile isDigit = rest := by
  rw [List.dropWhile_append_of_pos hd]
  cases rest with
  | nil => rfl
  | cons b rest => rw [List.dropWhile_cons_of_neg (by simpa using hr b rfl)]

end Digits

/-- No digit, no point and no mark of an exponent. -/
theorem Ends.head {rest : Bytes} (h : Ends rest) :
    ∀ b ∈ rest.head?, isDigit b = false ∧ b ≠ byte '.' ∧ lowerByte b ≠ byte 'e' := by
  intro b hb
  rcases h b hb with rfl | rfl | rfl <;> decide

/-! ## The parts of a number -/

open Numeral

variable {s : Spelling} {rest : Bytes}

/-- The fraction as the reader gives it. -/
def fraction? (s : Spelling) : Option Bytes := if s.fraction = [] then none else some s.fraction

theorem scanExponent_text (h : s.WF) (hr : Ends rest) :
    scanExponent (s.exponentText ++ rest) = some (s.exponent?, rest) := by
  unfold Spelling.exponentText Spelling.exponent?
  cases he : s.exponent with
  | none =>
    cases rest with
    | nil => rfl
    | cons b rest =>
      have hb := (hr.head b rfl).2.2
      change scanExponent (b :: rest) = _
      rw [scanExponent, if_neg hb]
      rfl
  | some e =>
    obtain ⟨negative, digits⟩ := e
    obtain ⟨hne, hdigits⟩ := h.exponent_digits _ he
    have hsign : Numeral.scanSign
        ((if negative then byte '-' else byte '+') :: (digits ++ rest)) =
          (negative, digits ++ rest) := by
      cases negative <;> rfl
    have hrest : ∀ b ∈ rest.head?, isDigit b = false := fun b hb => (hr.head b hb).1
    change scanExponent (byte 'e' :: (if negative then byte '-' else byte '+') ::
      (digits ++ rest)) = _
    rw [scanExponent, if_pos (by decide), hsign]
    dsimp only
    rw [takeWhile_digits hdigits hrest, dropWhile_digits hdigits hrest, if_neg]
    · rfl
    · simpa using hne

theorem head_exponentText (h : Ends rest) :
    ∀ b ∈ (s.exponentText ++ rest).head?, isDigit b = false ∧ b ≠ byte '.' := by
  unfold Spelling.exponentText
  cases s.exponent with
  | none =>
    intro b hb
    exact ⟨(h.head b hb).1, (h.head b hb).2.1⟩
  | some e =>
    rintro b ⟨rfl⟩
    decide

theorem scanFraction_text (h : s.WF) (hr : Ends rest) :
    scanFraction (s.fractionText ++ (s.exponentText ++ rest)) =
      some (fraction? s, s.exponentText ++ rest) := by
  have hhead := head_exponentText (s := s) hr
  unfold Spelling.fractionText fraction?
  by_cases hnil : s.fraction = []
  · rw [if_pos hnil, if_pos hnil, List.nil_append]
    cases ht : s.exponentText ++ rest with
    | nil => rfl
    | cons b t =>
      rw [ht] at hhead
      rw [scanFraction, if_neg (hhead b rfl).2]
  · have hdigits := h.fraction_digits
    have hrest : ∀ b ∈ (s.exponentText ++ rest).head?, isDigit b = false :=
      fun b hb => (hhead b hb).1
    rw [if_neg hnil, if_neg hnil, List.cons_append, scanFraction, if_pos rfl]
    dsimp only
    rw [takeWhile_digits hdigits hrest, dropWhile_digits hdigits hrest, if_neg]
    simpa using hnil

theorem head_fractionText (h : Ends rest) :
    ∀ b ∈ (s.fractionText ++ (s.exponentText ++ rest)).head?, isDigit b = false := by
  unfold Spelling.fractionText
  split
  · intro b hb
    exact (head_exponentText h b hb).1
  · rintro b ⟨rfl⟩
    decide

theorem wholeDigits?_whole (h : s.WF) : wholeDigits? s.whole = some s.whole := by
  obtain ⟨hne, -, hhead, -, -⟩ := h
  cases hw : s.whole with
  | nil => exact absurd hw hne
  | cons d more =>
    cases more with
    | nil => rfl
    | cons d' more =>
      exact if_neg (hhead d (d' :: more) hw (List.cons_ne_nil _ _))

/-- What is read after the sign. -/
def scanMagnitude (negative : Bool) (body : Bytes) : Option (Number × Bytes) := do
  let whole ← wholeDigits? (body.takeWhile isDigit)
  let (fraction, rest) ← scanFraction (body.dropWhile isDigit)
  let (exponent, rest) ← scanExponent rest
  let n ← classify negative whole fraction exponent
  return (n, rest)

theorem scanNumber_minus (body : Bytes) : scanNumber (byte '-' :: body) = scanMagnitude true body :=
  rfl

theorem scanNumber_cons {b : UInt8} (hb : b ≠ byte '-') (rest : Bytes) :
    scanNumber (b :: rest) = scanMagnitude false (b :: rest) := by
  unfold scanNumber
  dsimp only
  rw [if_neg hb]
  rfl

theorem scanMagnitude_text (h : s.WF) (hr : Ends rest) (negative : Bool) :
    scanMagnitude negative (s.whole ++ (s.fractionText ++ (s.exponentText ++ rest))) =
      (classify negative s.whole (fraction? s) s.exponent?).map fun n => (n, rest) := by
  have hhead := head_fractionText (s := s) hr
  rw [scanMagnitude, takeWhile_digits h.whole_digits hhead, dropWhile_digits h.whole_digits hhead,
    wholeDigits?_whole h, scanFraction_text h hr]
  dsimp only [Option.bind_eq_bind, Option.bind_some]
  rw [scanExponent_text h hr]
  dsimp only [Option.bind_eq_bind, Option.bind_some]
  cases classify negative s.whole (fraction? s) s.exponent? <;> rfl

/-- **A number is taken apart as it was spelled.** -/
theorem scanNumber_text (h : s.WF) (hr : Ends rest) :
    scanNumber (s.text ++ rest) =
      (classify s.negative s.whole (fraction? s) s.exponent?).map fun n => (n, rest) := by
  have hmagnitude := scanMagnitude_text h hr s.negative
  have htext : s.text ++ rest = (if s.negative then [byte '-'] else []) ++
      (s.whole ++ (s.fractionText ++ (s.exponentText ++ rest))) := by
    simp only [Spelling.text, List.append_assoc]
  rw [htext]
  cases hnegative : s.negative with
  | true =>
    rw [hnegative] at hmagnitude
    exact (scanNumber_minus _).trans hmagnitude
  | false =>
    obtain ⟨d, more, hd⟩ := List.exists_cons_of_ne_nil h.whole_ne_nil
    have hdigit : isDigit d = true := h.whole_digits d (by rw [hd]; exact List.mem_cons_self)
    have hminus : d ≠ byte '-' := by
      rintro rfl
      exact absurd hdigit (by decide)
    rw [hnegative] at hmagnitude
    rw [← hmagnitude, hd]
    exact scanNumber_cons hminus _

/-! ## Numbers -/

/-- A number as it is read back: what is no number in JSON becomes null, and an integer that is not
negative has no sign. -/
def readNumber : Number → Json
  | .unsigned n => .number (.unsigned n)
  | .signed i => if i < 0 then .number (.signed i) else .number (.unsigned i.toUInt64)
  | .float x => if Binary64.isFinite x then .number (.float x) else .null

/-- The spelling of a whole number. -/
def wholeSpelling (negative : Bool) (n : Nat) : Spelling := ⟨negative, decimal n, [], none⟩

theorem wholeSpelling_wf (negative : Bool) (n : Nat) : (wholeSpelling negative n).WF :=
  ⟨decimal_ne_nil n, fun _ hb => isDigit_of_mem_decimal hb,
    fun _ _ hd hrest => decimal_no_leading_zero hd hrest, (fun _ hb => nomatch hb),
    fun _ he => nomatch he⟩

theorem scanNumber_unsigned (n : UInt64) (hr : Ends rest) :
    scanNumber (decimal n.toNat ++ rest) = some (.unsigned n, rest) := by
  have htext : decimal n.toNat = (wholeSpelling false n.toNat).text := by
    simp [wholeSpelling, Spelling.text, Spelling.fractionText, Spelling.exponentText]
  have hlt : n.toNat < UInt64.size := n.toNat_lt
  rw [htext, scanNumber_text (wholeSpelling_wf _ _) hr]
  simp only [wholeSpelling, fraction?, Spelling.exponent?, if_true, Option.map_none, classify,
    digitsValue_decimal]
  rw [if_pos (by simpa using hlt), UInt64.ofNat_toNat]
  rfl

theorem scanNumber_signed {i : Int64} (hi : i < 0) (hr : Ends rest) :
    scanNumber (byte '-' :: decimal i.toInt.natAbs ++ rest) = some (.signed i, rest) := by
  have htext : byte '-' :: decimal i.toInt.natAbs = (wholeSpelling true i.toInt.natAbs).text := by
    simp [wholeSpelling, Spelling.text, Spelling.fractionText, Spelling.exponentText]
  have hneg : i.toInt < 0 := Int64.lt_iff_toInt_lt.mp hi
  have hlow : -2 ^ 63 ≤ i.toInt := Int64.le_toInt i
  have habs : -(i.toInt.natAbs : Int) = i.toInt := by omega
  rw [htext, scanNumber_text (wholeSpelling_wf _ _) hr]
  simp only [wholeSpelling, fraction?, Spelling.exponent?, if_true, Option.map_none, classify,
    digitsValue_decimal, habs, Int64.ofInt_toInt]
  rw [if_neg (by simp), if_pos]
  · rfl
  · simp [Binary64.signWeight]
    omega

/-- **A finite double is read as it was written**, bit for bit. -/
theorem scanNumber_float {x : Float} {v : Binary64.Finite} (hx : Binary64.finite? x = some v)
    (hr : Ends rest) : scanNumber (writeFinite v ++ rest) = some (.float x, rest) := by
  obtain ⟨hwf, -, -⟩ := Binary64.finite?_eq_some hx
  obtain ⟨s, hs, hfractional, hsign, htext, hbits⟩ := writeFinite_spelled hwf
  have hlt := v.bits_lt hwf
  have hplaces : (fraction? s).getD [] = s.fraction := by
    unfold fraction?
    split
    · next h => exact h.symm
    · rfl
  have hclassify : classify s.negative s.whole (fraction? s) s.exponent? = some (.float x) := by
    have hshape : ((fraction? s).isNone && s.exponent?.isNone) = false := by
      rcases hfractional with h | h
      · simp [fraction?, h]
      · cases he : s.exponent with
        | none => exact absurd he h
        | some e => simp [Spelling.exponent?, he]
    have hround : s.numeral.round = x := by
      rw [Numeral.round, hbits]
      change Binary64.ofSignBits s.negative v.bits = x
      rw [hsign, Binary64.ofSignBits_bits hx]
    have hover : s.numeral.overflows = false := by
      rw [Numeral.overflows, hbits]
      simpa using hlt
    unfold classify
    simp only [hshape, Bool.false_and, Bool.false_eq_true, if_false, hplaces]
    change (if s.numeral.overflows = true then none else some (Number.float s.numeral.round)) = _
    rw [hover, hround]
    rfl
  rw [← htext, scanNumber_text hs hr, hclassify]
  rfl

end Telemetry.Json

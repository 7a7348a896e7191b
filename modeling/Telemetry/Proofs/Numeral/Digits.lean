import Mathlib.Algebra.Group.Nat.Defs
import Mathlib.Data.List.Induction
import Telemetry.Bytes

/-!
# Decimal digits

The digits of a number are digits, have the number as their value (`digitsValue_decimal`) and do not
start with a zero unless the number is zero.
-/

namespace Telemetry.Bytes

theorem isDigit_iff {b : UInt8} : isDigit b = true ↔ 48 ≤ b.toNat ∧ b.toNat ≤ 57 := by
  simp only [isDigit, Bool.and_eq_true, decide_eq_true_eq, UInt8.le_iff_toNat_le]
  rfl

theorem digitValue_of_isDigit {b : UInt8} (h : isDigit b = true) :
    digitValue b = b.toNat - 48 := by
  have hle : byte '0' ≤ b := by
    rw [UInt8.le_iff_toNat_le]
    exact (isDigit_iff.mp h).1
  rw [digitValue, if_pos h, UInt8.toNat_sub_of_le _ _ hle]
  rfl

theorem digitsValue_concat (base : Nat) (s : Bytes) (b : UInt8) :
    digitsValue base (s ++ [b]) = base * digitsValue base s + digitValue b := by
  rw [digitsValue, List.foldl_append]
  rfl

/-- Digits behind others shift them. -/
theorem digitsValue_append (base : Nat) (s t : Bytes) :
    digitsValue base (s ++ t) = digitsValue base s * base ^ t.length + digitsValue base t := by
  induction t using List.reverseRecOn with
  | nil =>
    rw [List.append_nil, List.length_nil, Nat.pow_zero, Nat.mul_one]
    rfl
  | append_singleton t b ih =>
    rw [← List.append_assoc, digitsValue_concat, ih, digitsValue_concat, List.length_append,
      List.length_singleton, Nat.pow_succ, Nat.mul_add]
    have hshift : base * (digitsValue base s * base ^ t.length) =
        digitsValue base s * (base ^ t.length * base) := by
      rw [Nat.mul_left_comm, Nat.mul_comm base]
    omega

theorem digitsValue_lt {s : Bytes} (h : s.all isDigit = true) : digitsValue 10 s < 10 ^ s.length := by
  induction s using List.reverseRecOn with
  | nil => exact Nat.one_pos
  | append_singleton s b ih =>
    rw [List.all_append, Bool.and_eq_true, List.all_cons, List.all_nil, Bool.and_true] at h
    have hvalue := digitValue_of_isDigit h.2
    have hdigit := (isDigit_iff.mp h.2).2
    rw [digitsValue_concat, List.length_append, List.length_singleton, Nat.pow_succ]
    have hs := ih h.1
    omega

theorem digitsValue_zeros (base n : Nat) :
    digitsValue base (List.replicate n (byte '0')) = 0 := by
  induction n with
  | zero => rfl
  | succ n ih =>
    have hzero : digitValue (byte '0') = 0 := by decide
    rw [List.replicate_succ', digitsValue_concat, ih, hzero, Nat.mul_zero]

theorem digitsValue_append_zeros (base : Nat) (s : Bytes) (n : Nat) :
    digitsValue base (s ++ List.replicate n (byte '0')) = digitsValue base s * base ^ n := by
  rw [digitsValue_append, digitsValue_zeros, List.length_replicate, Nat.add_zero]

/-- Digits of one length have different values. -/
theorem eq_of_digitsValue_eq {s t : Bytes} (hs : s.all isDigit = true) (ht : t.all isDigit = true)
    (hlength : s.length = t.length) (h : digitsValue 10 s = digitsValue 10 t) : s = t := by
  induction s using List.reverseRecOn generalizing t with
  | nil => exact (List.length_eq_zero_iff.mp hlength.symm).symm
  | append_singleton s b ih =>
    obtain rfl | ⟨t, c, rfl⟩ := t.eq_nil_or_concat
    · simp at hlength
    · rw [List.concat_eq_append] at *
      rw [List.all_append, Bool.and_eq_true, List.all_cons, List.all_nil, Bool.and_true] at hs ht
      rw [digitsValue_concat, digitsValue_concat, digitValue_of_isDigit hs.2, digitValue_of_isDigit ht.2] at h
      have hb := isDigit_iff.mp hs.2
      have hc := isDigit_iff.mp ht.2
      have hbyte : b = c := UInt8.toNat_inj.mp (by omega)
      rw [ih hs.1 ht.1 (by simpa using hlength) (by omega), hbyte]

/-! ## The digits of a number -/

/-- The byte of a digit. -/
theorem toNat_byte_digitChar {d : Nat} (h : d < 10) : (byte (Nat.digitChar d)).toNat = 48 + d := by
  have hall : ∀ d : Fin 10, (byte (Nat.digitChar d)).toNat = 48 + d := by decide
  exact hall ⟨d, h⟩

theorem decimal_of_lt {n : Nat} (h : n < 10) : decimal n = [byte (Nat.digitChar n)] := by
  rw [decimal, Nat.toDigits_of_lt_base h, List.map_singleton]

theorem decimal_of_le {n : Nat} (h : 10 ≤ n) :
    decimal n = decimal (n / 10) ++ [byte (Nat.digitChar (n % 10))] := by
  rw [decimal, Nat.toDigits_of_base_le (by decide) h, List.map_append, List.map_singleton, decimal]

theorem isDigit_digitChar {d : Nat} (h : d < 10) : isDigit (byte (Nat.digitChar d)) = true := by
  rw [isDigit_iff, toNat_byte_digitChar h]
  omega

theorem digitValue_digitChar {d : Nat} (h : d < 10) : digitValue (byte (Nat.digitChar d)) = d := by
  rw [digitValue_of_isDigit (isDigit_digitChar h), toNat_byte_digitChar h]
  omega

theorem decimal_ne_nil (n : Nat) : decimal n ≠ [] := by
  rw [decimal, ne_eq, List.map_eq_nil_iff]
  exact Nat.toDigits_ne_nil

theorem isDigit_of_mem_decimal {n : Nat} {b : UInt8} (h : b ∈ decimal n) : isDigit b = true := by
  induction n using Nat.strongRecOn with
  | ind n ih =>
    rcases Nat.lt_or_ge n 10 with hn | hn
    · rw [decimal_of_lt hn, List.mem_singleton] at h
      rw [h]
      exact isDigit_digitChar hn
    · rw [decimal_of_le hn, List.mem_append, List.mem_singleton] at h
      rcases h with h | rfl
      · exact ih (n / 10) (by omega) h
      · exact isDigit_digitChar (Nat.mod_lt _ (by decide))

/-- **The digits of a number have it as their value.** -/
theorem digitsValue_decimal (n : Nat) : digitsValue 10 (decimal n) = n := by
  induction n using Nat.strongRecOn with
  | ind n ih =>
    rcases Nat.lt_or_ge n 10 with hn | hn
    · have hvalue := digitValue_digitChar hn
      rw [decimal_of_lt hn, ← List.nil_append [byte _], digitsValue_concat, hvalue]
      exact Nat.zero_add n
    · rw [decimal_of_le hn, digitsValue_concat, ih (n / 10) (by omega),
        digitValue_digitChar (Nat.mod_lt _ (by decide))]
      exact Nat.div_add_mod n 10

/-- The first digit of a positive number is not zero. -/
theorem head_decimal {n : Nat} (h : 0 < n) : ∃ b rest, decimal n = b :: rest ∧ b ≠ byte '0' := by
  induction n using Nat.strongRecOn with
  | ind n ih =>
    rcases Nat.lt_or_ge n 10 with hn | hn
    · refine ⟨byte (Nat.digitChar n), [], decimal_of_lt hn, fun he => ?_⟩
      have hvalue := toNat_byte_digitChar hn
      rw [he] at hvalue
      change 48 = 48 + n at hvalue
      omega
    · obtain ⟨b, rest, hb, hne⟩ := ih (n / 10) (by omega) (by omega)
      exact ⟨b, rest ++ [byte (Nat.digitChar (n % 10))], by rw [decimal_of_le hn, hb]; rfl, hne⟩

theorem decimal_no_leading_zero {n : Nat} {d : UInt8} {rest : Bytes} (h : decimal n = d :: rest)
    (hrest : rest ≠ []) : d ≠ byte '0' := by
  rcases Nat.eq_zero_or_pos n with rfl | hn
  · exact absurd (List.cons.inj h).2.symm hrest
  · obtain ⟨b, more, hb, hne⟩ := head_decimal hn
    rw [hb] at h
    rw [← (List.cons.inj h).1]
    exact hne

end Telemetry.Bytes

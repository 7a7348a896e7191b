import Mathlib.Algebra.GroupWithZero.Divisibility
import Mathlib.Algebra.Group.Nat.Defs
import Telemetry.Fnv

/-!
# FNV-1a in numbers

What is hashed and how, told in natural numbers: a record is written byte by byte, a word from its lowest
byte on, and each byte is mixed into a state of 64 bits (`toNat_hash64`, `toNat_word`).  A hasher takes the
bytes in any pieces (`Hasher.foldl_write`).
-/

namespace Telemetry.Fnv

/-- FNV-1a of 64 bits over some bytes. -/
def fnv1a64 (bytes : List Nat) : Nat :=
  bytes.foldl (fun h b => (h ^^^ b) * 0x100000001b3 % 2 ^ 64) 0xcbf29ce484222325

/-- The eight bytes of a number of 64 bits, lowest first. -/
def littleEndian (n : Nat) : List Nat := (List.range 8).map fun i => n / 256 ^ i % 256

theorem toNat_step64 (h : UInt64) (b : UInt8) :
    (step64 h b).toNat = (h.toNat ^^^ b.toNat) * 0x100000001b3 % 2 ^ 64 := by
  rw [step64, UInt64.toNat_mul, UInt64.toNat_xor, UInt8.toNat_toUInt64]
  rfl

/-- **The hash of a text** is FNV-1a over its bytes. -/
theorem toNat_hash64 (s : Bytes) : (hash64 s).toNat = fnv1a64 (s.map UInt8.toNat) := by
  have hcontinue : ∀ h : UInt64, (continue64 h s).toNat =
      (s.map UInt8.toNat).foldl (fun h b => (h ^^^ b) * 0x100000001b3 % 2 ^ 64) h.toNat := by
    induction s with
    | nil => exact fun h => rfl
    | cons b rest ih =>
      intro h
      rw [continue64, List.foldl_cons, List.map_cons, List.foldl_cons, ← toNat_step64]
      exact ih (step64 h b)
  exact hcontinue offset64

/-- **A word is written from its lowest byte on.** -/
theorem toNat_word (n : UInt64) : (word n).map UInt8.toNat = littleEndian n.toNat := by
  rw [word, littleEndian, List.map_map]
  refine List.map_congr_left fun i hi => ?_
  have hlt : i < 8 := List.mem_range.mp hi
  have hshift : (8 * i).toUInt64.toNat % 64 = 8 * i := by
    rw [Nat.toUInt64_eq, UInt64.toNat_ofNat', Nat.mod_eq_of_lt (by omega), Nat.mod_eq_of_lt (by omega)]
  rw [Function.comp_apply, UInt64.toNat_toUInt8, UInt64.toNat_shiftRight, hshift,
    Nat.shiftRight_eq_div_pow, Nat.pow_mul]

/-! ## Telling words apart -/

theorem littleEndian_mod (n : Nat) : littleEndian (n % 2 ^ 64) = littleEndian n := by
  refine List.map_congr_left fun i hi => ?_
  have hlt : i < 8 := List.mem_range.mp hi
  have hsplit : (2 : Nat) ^ 64 = 256 ^ i * 256 ^ (8 - i) := by
    rw [← Nat.pow_add, Nat.add_sub_cancel' (Nat.le_of_lt hlt)]
    rfl
  have hdvd : 256 ∣ 256 ^ (8 - i) := dvd_pow_self 256 (Nat.sub_ne_zero_of_lt hlt)
  rw [hsplit, Nat.mod_mul_right_div_self, Nat.mod_mod_of_dvd _ hdvd]

/-- The bytes of a number determine it up to the 64 bits that they have room for. -/
theorem mod_eq_of_littleEndian_eq {m n : Nat} (h : littleEndian m = littleEndian n) :
    m % 2 ^ 64 = n % 2 ^ 64 := by
  have hbytes : ∀ i < 8, m / 256 ^ i % 256 = n / 256 ^ i % 256 := fun i hi =>
    List.map_inj_left.mp h i (List.mem_range.mpr hi)
  have hlow : ∀ k ≤ 8, m % 256 ^ k = n % 256 ^ k := by
    intro k hk
    induction k with
    | zero => rw [Nat.pow_zero, Nat.mod_one, Nat.mod_one]
    | succ k ih => rw [Nat.mod_pow_succ, Nat.mod_pow_succ, ih (Nat.le_of_succ_le hk), hbytes k hk]
  exact hlow 8 (Nat.le_refl 8)

theorem length_word (n : UInt64) : (word n).length = 8 := by rw [word, List.length_map, List.length_range]

theorem word_injective : Function.Injective word := by
  intro m n h
  have hbytes : littleEndian m.toNat = littleEndian n.toNat := by
    rw [← toNat_word, ← toNat_word, h]
  have hmod := mod_eq_of_littleEndian_eq hbytes
  rw [Nat.mod_eq_of_lt m.toNat_lt, Nat.mod_eq_of_lt n.toNat_lt] at hmod
  exact UInt64.toNat_inj.mp hmod

/-- **A word ends after eight bytes**, whatever they are. -/
theorem word_append_inj {m n : UInt64} {s t : Bytes} :
    word m ++ s = word n ++ t ↔ m = n ∧ s = t := by
  constructor
  · intro h
    obtain ⟨hword, hrest⟩ := List.append_inj h (by rw [length_word, length_word])
    exact ⟨word_injective hword, hrest⟩
  · rintro ⟨rfl, rfl⟩
    rfl

/-! ## A hasher -/

/-- A hash on its way. -/
structure Hasher where
  state : UInt64 := offset64

namespace Hasher

def write (h : Hasher) (s : Bytes) : Hasher := ⟨continue64 h.state s⟩

def writeWord (h : Hasher) (n : UInt64) : Hasher := h.write (word n)

/-- The byte that ends a text is written apart from it. -/
def writeText (h : Hasher) (s : Bytes) : Hasher := (h.write s).write [0xff]

def finish (h : Hasher) : UInt64 := h.state

theorem write_append (h : Hasher) (s t : Bytes) : h.write (s ++ t) = (h.write s).write t := by
  rw [write, continue64_append]
  rfl

theorem writeText_eq (h : Hasher) (s : Bytes) : h.writeText s = h.write (terminated s) :=
  (write_append h s [0xff]).symm

/-- **Writing in pieces is writing the whole.** -/
theorem foldl_write (h : Hasher) (writes : List Bytes) : writes.foldl write h = h.write writes.flatten := by
  induction writes generalizing h with
  | nil => rfl
  | cons s rest ih => rw [List.foldl_cons, ih, List.flatten_cons, write_append]

theorem finish_write (s : Bytes) : (({} : Hasher).write s).finish = hash64 s := rfl

end Hasher

end Telemetry.Fnv

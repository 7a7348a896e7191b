import Telemetry.Bytes

/-!
# FNV-1a hashes

The 32-bit and 64-bit hashes are folds over the bytes, so hashing a concatenation is hashing its
parts one after another.  A record is hashed through the bytes it writes: an integer as its eight
bytes, lowest first, and a text as its bytes followed by `0xff`, which no UTF-8 text contains.
-/

namespace Telemetry.Fnv

/-! ## 32 bits -/

/-- The start of a 32-bit hash. -/
def offset32 : UInt32 := 0x811c9dc5

def step32 (h : UInt32) (b : UInt8) : UInt32 := (h ^^^ b.toUInt32) * 0x01000193

/-- The 32-bit hash that goes on from a given state. -/
def continue32 (h : UInt32) (s : Bytes) : UInt32 := s.foldl step32 h

def hash32 (s : Bytes) : UInt32 := continue32 offset32 s

/-! ## 64 bits -/

/-- The start of a 64-bit hash. -/
def offset64 : UInt64 := 0xcbf29ce484222325

def step64 (h : UInt64) (b : UInt8) : UInt64 := (h ^^^ b.toUInt64) * 0x100000001b3

/-- The 64-bit hash that goes on from a given state. -/
def continue64 (h : UInt64) (s : Bytes) : UInt64 := s.foldl step64 h

def hash64 (s : Bytes) : UInt64 := continue64 offset64 s

theorem continue64_append (h : UInt64) (s t : Bytes) :
    continue64 h (s ++ t) = continue64 (continue64 h s) t := by
  simp [continue64]

/-! ## What a record writes -/

/-- The eight bytes of a word, lowest first. -/
def word (n : UInt64) : Bytes :=
  (List.range 8).map fun i => (n >>> (8 * i).toUInt64).toUInt8

/-- A text and the byte that ends it. -/
def terminated (s : Bytes) : Bytes := s ++ [0xff]

end Telemetry.Fnv

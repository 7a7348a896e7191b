import Telemetry.Fnv

/-!
# Metric values

Four kinds of value, each with its own rule for merging: a counter adds, a distribution keeps every
value in order, a set keeps distinct members, a gauge keeps the last, least, greatest, sum and count
of what it saw.  Values of different kinds do not merge.

The values are over any type `ν` of readings with an addition and an order, so that the rules can
be read over exact numbers as well as over `Float`.
-/

namespace Telemetry

/-- The kinds of metric value. -/
inductive Kind where
  | counter
  | distribution
  | set
  | gauge
  deriving DecidableEq, Repr

namespace Kind

def all : List Kind := [.counter, .distribution, .set, .gauge]

/-- The letter that stands for a kind in names and submissions. -/
def letter : Kind → UInt8
  | .counter => byte 'c'
  | .distribution => byte 'd'
  | .set => byte 's'
  | .gauge => byte 'g'

def ofLetter? (b : UInt8) : Option Kind := all.find? fun k => k.letter == b

/-- The kind that a one-letter text names. -/
def ofText? : Bytes → Option Kind
  | [b] => ofLetter? b
  | _ => none

def label : Kind → String
  | .counter => "counter"
  | .distribution => "distribution"
  | .set => "set"
  | .gauge => "gauge"

end Kind

/-! ## Sets -/

/-- The distinct members of a set, ascending. -/
structure Members where
  toList : List UInt32
  ascending : toList.Pairwise (· < ·) := by simp
  deriving DecidableEq

namespace Members

/-- Adds a member to an ascending list, once. -/
def insertInto (m : UInt32) : List UInt32 → List UInt32
  | [] => [m]
  | x :: rest =>
    if m < x then m :: x :: rest else if m = x then x :: rest else x :: insertInto m rest

theorem mem_insertInto {m x : UInt32} {l : List UInt32} :
    x ∈ insertInto m l ↔ x = m ∨ x ∈ l := by
  induction l with
  | nil => simp [insertInto]
  | cons y rest ih =>
    unfold insertInto
    split
    · simp
    · split
      · rename_i h
        subst h
        simp
      · simp only [List.mem_cons, ih]
        grind

theorem pairwise_insertInto {m : UInt32} {l : List UInt32} (h : l.Pairwise (· < ·)) :
    (insertInto m l).Pairwise (· < ·) := by
  induction l with
  | nil => simp [insertInto]
  | cons y rest ih =>
    have hy := List.pairwise_cons.mp h
    unfold insertInto
    split
    · rename_i hlt
      refine List.pairwise_cons.mpr ⟨fun z hz => ?_, h⟩
      rcases List.mem_cons.mp hz with rfl | hz
      · exact hlt
      · exact UInt32.lt_trans hlt (hy.1 z hz)
    · split
      · exact h
      · rename_i hlt hne
        refine List.pairwise_cons.mpr ⟨fun z hz => ?_, ih hy.2⟩
        rcases mem_insertInto.mp hz with rfl | hz
        · exact UInt32.lt_of_le_of_ne (UInt32.not_lt.mp hlt) (Ne.symm hne)
        · exact hy.1 z hz

def empty : Members := ⟨[], List.Pairwise.nil⟩

def insert (m : UInt32) (s : Members) : Members :=
  ⟨insertInto m s.toList, pairwise_insertInto s.ascending⟩

def ofList (ms : List UInt32) : Members := ms.foldl (fun s m => s.insert m) empty

/-- All members of both. -/
def union (s t : Members) : Members := t.toList.foldl (fun s m => s.insert m) s

/-- The member that a text stands for: its number if it is a decimal of 32 bits, else its hash. -/
def ofText (raw : Bytes) : UInt32 :=
  match Bytes.decimal? raw with
  | some n => if n < UInt32.size then UInt32.ofNat n else Fnv.hash32 raw
  | none => Fnv.hash32 raw

end Members

/-! ## Gauges -/

/-- What is kept of a sequence of readings. -/
structure Gauge (ν : Type) where
  last : ν
  min : ν
  max : ν
  sum : ν
  count : UInt64
  deriving DecidableEq

namespace Gauge

variable {ν : Type}

/-- The gauge of one reading. -/
def single (x : ν) : Gauge ν := ⟨x, x, x, x, 1⟩

/-- The gauge that saw nothing. -/
def empty [Zero ν] : Gauge ν := ⟨0, 0, 0, 0, 0⟩

variable [Add ν] [LT ν] [DecidableLT ν]

/-- The second of two readings if it is below the first, else the first. -/
def lesser (a b : ν) : ν := if b < a then b else a

/-- The second of two readings if the first is below it, else the first. -/
def greater (a b : ν) : ν := if a < b then b else a

/-- The gauge that saw what `g` saw and then what `h` saw. -/
def merge (g h : Gauge ν) : Gauge ν :=
  if h.count = 0 then g
  else if g.count = 0 then h
  else ⟨h.last, lesser g.min h.min, greater g.max h.max, g.sum + h.sum, g.count + h.count⟩

def insert (g : Gauge ν) (x : ν) : Gauge ν := g.merge (single x)

def ofList [Zero ν] (xs : List ν) : Gauge ν := xs.foldl insert empty

/-- Equal readings, where zeros are equal and NaN equals nothing, and equal counts. -/
def sameReadings [BEq ν] (g h : Gauge ν) : Bool :=
  g.last == h.last && g.min == h.min && g.max == h.max && g.sum == h.sum && g.count == h.count

end Gauge

/-! ## Values -/

inductive Value (ν : Type) where
  | counter (sum : ν)
  | distribution (values : List ν)
  | set (members : Members)
  | gauge (g : Gauge ν)
  deriving DecidableEq

namespace Value

variable {ν : Type}

def kind : Value ν → Kind
  | .counter _ => .counter
  | .distribution _ => .distribution
  | .set _ => .set
  | .gauge _ => .gauge

variable [Add ν] [LT ν] [DecidableLT ν]

/-- The second value merged into the first; `none` if they are of different kinds. -/
def merge? : Value ν → Value ν → Option (Value ν)
  | .counter x, .counter y => some (.counter (x + y))
  | .distribution xs, .distribution ys => some (.distribution (xs ++ ys))
  | .set s, .set t => some (.set (s.union t))
  | .gauge g, .gauge h => some (.gauge (g.merge h))
  | _, _ => none

/-- Values merge exactly if they are of one kind. -/
theorem isSome_merge?_iff (v w : Value ν) : (v.merge? w).isSome ↔ v.kind = w.kind := by
  cases v <;> cases w <;> simp [merge?, kind]

/-- Merging keeps the kind. -/
theorem kind_merge? {v w u : Value ν} (h : v.merge? w = some u) : u.kind = v.kind := by
  cases v <;> cases w <;> simp [merge?] at h <;> subst h <;> rfl

end Value

end Telemetry

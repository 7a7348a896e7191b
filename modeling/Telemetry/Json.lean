import Telemetry.Ordered
import Telemetry.Utf8
import Telemetry.Binary64

/-!
# JSON values

Three kinds of number are kept apart, because the relay accepts some members only as unsigned
integers.  Object members are in byte order of their names, each name once.  Reading a member that
is missing or of another kind than asked for is a `Misuse`; numbers convert into each other by
truncation and reduction modulo the word size, never by a check.
-/

namespace Telemetry

/-- A number as its text shows it: no sign and no fraction, a sign and no fraction, anything else. -/
inductive Number where
  | unsigned (n : UInt64)
  | signed (i : Int64)
  | float (x : Float)

inductive Json where
  | null
  | bool (b : Bool)
  | number (n : Number)
  | string (s : Bytes)
  | array (items : List Json)
  | object (members : List (Bytes × Json))

instance : Inhabited Json := ⟨.null⟩

namespace Number

/-- The nearest double; the one of a negative number is that of its magnitude with a sign. -/
def toFloat : Number → Float
  | .unsigned n => Binary64.ofWord n
  | .signed i =>
    if i < 0 then -Binary64.ofWord (0 - i.toUInt64) else Binary64.ofWord i.toUInt64
  | .float x => x

/-- The number as a word, modulo `2 ^ 64`. -/
def toWord : Number → UInt64
  | .unsigned n => n
  | .signed i => i.toUInt64
  | .float x => Binary64.toWord x

/-- Written without fraction and exponent. -/
def isInteger : Number → Bool
  | .unsigned _ | .signed _ => true
  | .float _ => false

end Number

namespace Json

/-- A member is missing or of another kind than the reader asks for. -/
inductive Misuse where
  | missing
  | wrongKind
  deriving DecidableEq, Repr

/-! ## Views -/

def number? : Json → Option Number
  | .number n => some n
  | _ => none

def float? (j : Json) : Option Float := j.number?.map Number.toFloat

def string? : Json → Option Bytes
  | .string s => some s
  | _ => none

def bool? : Json → Option Bool
  | .bool b => some b
  | _ => none

def array? : Json → Option (List Json)
  | .array items => some items
  | _ => none

def object? : Json → Option (List (Bytes × Json))
  | .object members => some members
  | _ => none

def isNull : Json → Bool
  | .null => true
  | _ => false

/-- A member of an object; nothing else has members. -/
def get? (j : Json) (name : Bytes) : Option Json :=
  match j with
  | .object members => Ordered.get? name members
  | _ => none

/-- A member is smaller than its object. -/
theorem sizeOf_lt_of_get? {j v : Json} {name : Bytes} (h : j.get? name = some v) :
    sizeOf v < sizeOf j := by
  cases j with
  | object members =>
    have mem : ∀ ms : List (Bytes × Json), Ordered.get? name ms = some v →
        sizeOf v < sizeOf ms := by
      intro ms
      induction ms with
      | nil => simp
      | cons m rest ih =>
        obtain ⟨k, w⟩ := m
        simp only [Ordered.get?, List.cons.sizeOf_spec, Prod.mk.sizeOf_spec]
        split
        · rintro ⟨⟩
          omega
        · intro hr
          have := ih hr
          omega
    have := mem members h
    simp only [Json.object.sizeOf_spec]
    omega
  | _ => simp [get?] at h

/-- The value at the end of a path of member names. -/
def path? (j : Json) (names : List String) : Option Json :=
  names.foldlM (fun j name => j.get? (ascii name)) j

/-- A member that is a string. -/
def text? (j : Json) (name : String) : Option Bytes := (j.get? (ascii name)).bind string?

/-- The strings of a list; `none` if it is no list or has an item that is no string. -/
def strings? (j : Json) : Option (List Bytes) :=
  j.array?.bind fun items => items.mapM string?

/-! ## Reading with a cause -/

/-- The member, which has to be there. -/
def getMember (j : Json) (name : Bytes) : Except Misuse Json :=
  match j.get? name with
  | some v => .ok v
  | none => .error .missing

/-- The value of a view that has to apply. -/
def expect {α : Type} (view : Json → Option α) (j : Json) : Except Misuse α :=
  match view j with
  | some a => .ok a
  | none => .error .wrongKind

/-- The member if it is there, which then has to be of the kind, and a default otherwise. -/
def getOr {α : Type} (view : Json → Option α) (j : Json) (name : Bytes) (default : α) :
    Except Misuse α :=
  match j.get? name with
  | some v => expect view v
  | none => .ok default

/-- What iterating over any value yields: the members of an object, the items of a list under their
indices, nothing for null, and every other value once under the empty name. -/
def entries : Json → List (Bytes × Json)
  | .object members => members
  | .array items => items.zipIdx.map fun (v, i) => (Bytes.decimal i, v)
  | .null => []
  | j => [([], j)]

/-! ## Changing members -/

/-- Sets a member of an object; any other value stays. -/
def set (j : Json) (name : Bytes) (v : Json) : Json :=
  match j with
  | .object members => .object (Ordered.insert name v members)
  | j => j

/-- Removes a member of an object; any other value stays. -/
def erase (j : Json) (name : Bytes) : Json :=
  match j with
  | .object members => .object (Ordered.erase name members)
  | j => j

/-! ## Encoding check -/

mutual

/-- Every string in the value, member names included, is well-formed UTF-8. -/
def encodable : Json → Bool
  | .null | .bool _ | .number _ => true
  | .string s => Utf8.valid s
  | .array items => encodableItems items
  | .object members => encodableMembers members

def encodableItems : List Json → Bool
  | [] => true
  | j :: rest => encodable j && encodableItems rest

def encodableMembers : List (Bytes × Json) → Bool
  | [] => true
  | (name, j) :: rest => Utf8.valid name && encodable j && encodableMembers rest

end

end Json

end Telemetry

import Telemetry.Bytes

/-!
# Entries in key order

Tags, JSON objects and every other map of the library are lists of entries in strictly ascending
key order, so that equal maps are equal lists and iteration has one order.  `insert` replaces the
value of a key that is present.  Looking a key up needs no order; `Sorted` is what `insert`,
`erase` and `ofList` keep.
-/

namespace Telemetry

/-- Entries of a map, meant to ascend by key. -/
abbrev Entries (κ ν : Type) := List (κ × ν)

/-- The tags of a metric. -/
abbrev Tags := Entries Bytes Bytes

namespace Ordered

variable {κ ν : Type} [LT κ] [DecidableEq κ] [DecidableLT κ]

/-- The value of the first entry with a key. -/
def get? (k : κ) : List (κ × ν) → Option ν
  | [] => none
  | (k', v) :: rest => if k = k' then some v else get? k rest

/-- Adds an entry at its place, or replaces the value of the key. -/
def insert (k : κ) (v : ν) : List (κ × ν) → List (κ × ν)
  | [] => [(k, v)]
  | (k', v') :: rest =>
    if k < k' then (k, v) :: (k', v') :: rest
    else if k = k' then (k, v) :: rest
    else (k', v') :: insert k v rest

/-- Adds an entry at its place unless the key is present. -/
def insertNew (k : κ) (v : ν) (entries : List (κ × ν)) : List (κ × ν) :=
  if (get? k entries).isSome then entries else insert k v entries

/-- Adds an entry for a value that is there. -/
def insertSome (k : κ) (v : Option ν) (entries : List (κ × ν)) : List (κ × ν) :=
  match v with
  | some v => insert k v entries
  | none => entries

/-- Removes the entries of a key. -/
def erase (k : κ) (entries : List (κ × ν)) : List (κ × ν) :=
  entries.filter fun e => e.1 ≠ k

/-- The map of a list of entries; the last entry of a key wins. -/
def ofList (entries : List (κ × ν)) : List (κ × ν) :=
  entries.foldl (fun m e => insert e.1 e.2 m) []

/-- Strictly ascending keys. -/
def Sorted (entries : List (κ × ν)) : Prop := entries.Pairwise fun a b => a.1 < b.1

omit [LT κ] [DecidableLT κ] in
@[simp] theorem get?_nil (k : κ) : get? k ([] : List (κ × ν)) = none := rfl

/-- After an insertion the key has the new value. -/
@[simp] theorem get?_insert_self (k : κ) (v : ν) (entries : List (κ × ν)) :
    get? k (insert k v entries) = some v := by
  induction entries with
  | nil => simp [insert, get?]
  | cons e rest ih =>
    unfold insert
    split
    · simp [get?]
    · split
      · simp [get?]
      · rename_i h
        simp [get?, h, ih]

/-- An insertion leaves every other key alone. -/
theorem get?_insert_of_ne {k k' : κ} (h : k' ≠ k) (v : ν) (entries : List (κ × ν)) :
    get? k' (insert k v entries) = get? k' entries := by
  induction entries with
  | nil => simp [insert, get?, h]
  | cons e rest ih =>
    unfold insert
    split
    · simp [get?, h]
    · split
      · rename_i heq
        subst heq
        simp [get?, h]
      · simp [get?, ih]

end Ordered

end Telemetry

import Telemetry.Json
import Telemetry.Proofs.Ordered

/-!
# Values with members in order

Every object in a value has its members in the order of their names, each name once.  Members and items of
such a value are such values, and changing members keeps it one.
-/

namespace Telemetry.Json

inductive InOrder : Json → Prop
  | null : InOrder .null
  | bool (b : Bool) : InOrder (.bool b)
  | number (n : Number) : InOrder (.number n)
  | string (s : Bytes) : InOrder (.string s)
  | array {items : List Json} (h : ∀ j ∈ items, InOrder j) : InOrder (.array items)
  | object {members : List (Bytes × Json)} (hsorted : Ordered.Sorted members)
      (h : ∀ m ∈ members, InOrder m.2) : InOrder (.object members)

variable {j v : Json} {name : Bytes} {items : List Json} {members : List (Bytes × Json)}

theorem inOrder_array : (array items).InOrder ↔ ∀ j ∈ items, j.InOrder := by
  constructor
  · intro h
    cases h with
    | array h => exact h
  · exact .array

theorem inOrder_object : (object members).InOrder ↔ Ordered.Sorted members ∧ ∀ m ∈ members, m.2.InOrder := by
  constructor
  · intro h
    cases h with
    | object hsorted h => exact ⟨hsorted, h⟩
  · exact fun h => .object h.1 h.2

theorem InOrder.get? (h : j.InOrder) (hv : j.get? name = some v) : v.InOrder := by
  cases h with
  | object hsorted h => exact h _ (Ordered.mem_of_get? hv)
  | _ => cases hv

theorem InOrder.set (h : j.InOrder) (hv : v.InOrder) (name : Bytes) : (j.set name v).InOrder := by
  cases h with
  | object hsorted h =>
    refine .object hsorted.insert fun m hm => ?_
    rcases Ordered.mem_insert hm with rfl | hm
    · exact hv
    · exact h m hm
  | null => exact .null
  | bool b => exact .bool b
  | number n => exact .number n
  | string s => exact .string s
  | array h => exact .array h

theorem InOrder.erase (h : j.InOrder) (name : Bytes) : (j.erase name).InOrder := by
  cases h with
  | object hsorted h =>
    exact .object (hsorted.sublist List.filter_sublist) fun m hm => h m (List.mem_filter.mp hm).1
  | null => exact .null
  | bool b => exact .bool b
  | number n => exact .number n
  | string s => exact .string s
  | array h => exact .array h

/-- Setting a member to what it is changes nothing. -/
theorem InOrder.set_of_get? (h : j.InOrder) (hv : j.get? name = some v) : j.set name v = j := by
  cases h with
  | object hsorted h => exact congrArg Json.object (hsorted.insert_of_get? hv)
  | _ => cases hv

/-- Nothing but an object has members. -/
theorem isSome_object?_of_get? (h : j.get? name = some v) : j.object?.isSome = true := by
  cases j with
  | object members => rfl
  | _ => cases h

theorem get?_set_self (h : j.object?.isSome = true) (name : Bytes) (v : Json) :
    (j.set name v).get? name = some v := by
  cases j with
  | object members => exact Ordered.get?_insert_self name v members
  | _ => cases h

/-- The later of two values that a member is set to counts. -/
theorem set_set (j : Json) (name : Bytes) (v w : Json) : (j.set name w).set name v = j.set name v := by
  cases j with
  | object members => exact congrArg object (Ordered.insert_insert_self name v w members)
  | _ => rfl

end Telemetry.Json

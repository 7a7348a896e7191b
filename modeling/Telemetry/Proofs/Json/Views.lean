import Telemetry.Json

/-!
# Views of JSON values

A view applies to the values that it is named for.  So do the views of members: a text at a name is a
string there, and the strings of a list are its items.
-/

namespace Telemetry.Json

variable {j : Json} {name : String}

theorem number?_eq_some {n : Number} : j.number? = some n ↔ j = .number n := by
  cases j <;> simp [number?]

theorem string?_eq_some {s : Bytes} : j.string? = some s ↔ j = .string s := by
  cases j <;> simp [string?]

theorem array?_eq_some {items : List Json} : j.array? = some items ↔ j = .array items := by
  cases j <;> simp [array?]

theorem object?_eq_some {members : List (Bytes × Json)} : j.object? = some members ↔ j = .object members := by
  cases j <;> simp [object?]

theorem float?_eq_some {x : Float} : j.float? = some x ↔ ∃ n : Number, .number n = j ∧ n.toFloat = x := by
  cases j <;> simp [float?, number?]

theorem text?_eq_some {s : Bytes} : j.text? name = some s ↔ j.get? (ascii name) = some (.string s) := by
  simp [text?, Option.bind_eq_some_iff, string?_eq_some]

theorem bind_array?_eq_some {items : List Json} :
    (j.get? (ascii name)).bind array? = some items ↔ j.get? (ascii name) = some (.array items) := by
  simp [Option.bind_eq_some_iff, array?_eq_some]

theorem bind_object?_eq_some {members : List (Bytes × Json)} :
    (j.get? (ascii name)).bind object? = some members ↔ j.get? (ascii name) = some (.object members) := by
  simp [Option.bind_eq_some_iff, object?_eq_some]

theorem mapM_string?_eq_some {items : List Json} {values : List Bytes} :
    items.mapM string? = some values ↔ items = values.map .string := by
  induction items generalizing values with
  | nil => cases values <;> simp
  | cons item rest ih =>
    rw [List.mapM_cons]
    cases values with
    | nil => cases item <;> cases rest.mapM string? <;> simp [string?]
    | cons v more =>
      rw [List.map_cons, List.cons.injEq, ← ih]
      cases item <;> cases rest.mapM string? <;> simp [string?]

theorem strings?_eq_some {values : List Bytes} :
    j.strings? = some values ↔ j = .array (values.map .string) := by
  unfold strings?
  cases j with
  | array items => rw [array?, Option.bind_some, mapM_string?_eq_some, array.injEq]
  | _ => exact iff_of_false nofun nofun

/-- An item of a member is smaller than the object. -/
theorem sizeOf_lt_of_mem_array {name : Bytes} {items : List Json} {item : Json}
    (h : j.get? name = some (.array items)) (hitem : item ∈ items) : sizeOf item < sizeOf j := by
  have hitems := sizeOf_lt_of_get? h
  rw [array.sizeOf_spec] at hitems
  have := List.sizeOf_lt_of_mem hitem
  omega

end Telemetry.Json

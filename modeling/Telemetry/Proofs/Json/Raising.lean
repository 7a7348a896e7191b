import Telemetry.Bucket.Wire
import Telemetry.Event
import Telemetry.Extraction
import Telemetry.Metric.Line
import Telemetry.Proofs.Fallible

/-!
# JSON accesses that raise

The views of the library answer for every value.  Here each access raises on a value that it is not made
for: a member has to be there and its value an object, a conversion needs its kind of value, only objects
have members set and removed, and a text has to be UTF-8.  What reads with such accesses has to ask first;
then it returns what the view answers (`textAt_eq`, `time_eq`, `walk_eq`).
-/

namespace Telemetry

/-- What stops a computation. -/
inductive Raised where
  /-- A value is not of the kind that an access asks for, or has no such member. -/
  | misuse (m : Json.Misuse)
  /-- A value has no text. -/
  | encoding (e : Extraction.EncodingError)
  /-- A line is refused. -/
  | line (fault : Line.Fault)
  /-- An entry of a batch is refused. -/
  | entry (fault : Wire.Fault)
  /-- A payload is no batch. -/
  | notBatch
  deriving DecidableEq

/-- The wording of an error; the JSON library has its own, which is left out. -/
def Raised.message : Raised → Bytes
  | .misuse _ | .encoding _ => []
  | .line fault => fault.message
  | .entry fault => fault.message
  | .notBatch => Wire.notBatch

namespace Raising

/-! ## Accesses -/

/-- The value of a view that has to apply. -/
def demand {α : Type} (view : Json → Option α) (j : Json) : Except Raised α :=
  (j.expect view).mapError .misuse

/-- A member that has to be there, of a value that has to be an object. -/
def member (j : Json) (name : String) : Except Raised Json := do
  let _ ← demand Json.object? j
  (j.getMember (ascii name)).mapError .misuse

/-- A member for writing, null if it is not there, of a value that has to be an object. -/
def slot (j : Json) (name : String) : Except Raised Json := do
  let members ← demand Json.object? j
  return (Ordered.get? (ascii name) members).getD .null

/-- Sets a member of an object, or of null as of an empty object. -/
def assign (j : Json) (name : Bytes) (v : Json) : Except Raised Json := do
  if j.isNull then return .object [(name, v)]
  let members ← demand Json.object? j
  return .object (Ordered.insert name v members)

/-- Removes a member that has to be there. -/
def remove (j : Json) (name : String) : Except Raised Json := do
  let _ ← member j name
  return j.erase (ascii name)

/-- The text of a value. -/
def dump (j : Json) : Except Raised Bytes :=
  match j.dump? with
  | some text => .ok text
  | none => .error (.encoding .notUtf8)

/-! ## Questions, which never raise -/

/-- Whether a value is of the kind of a view. -/
def is {α : Type} (view : Json → Option α) (j : Json) : Bool := (view j).isSome

/-- Whether a value is an object with a member. -/
def has (j : Json) (name : String) : Bool := (j.get? (ascii name)).isSome

section Accesses

variable {α : Type} {view : Json → Option α} {j v : Json} {a : α} {name : String}
  {members : List (Bytes × Json)}

theorem object_of_get? {name : Bytes} (h : j.get? name = some v) : ∃ members, j = .object members := by
  cases j with
  | object members => exact ⟨members, rfl⟩
  | _ => cases h

theorem demand_of_view (h : view j = some a) : demand view j = .ok a := by
  rw [demand, Json.expect, h]
  rfl

@[simp] theorem demand_object : demand Json.object? (.object members) = .ok members := rfl

@[simp] theorem demand_array (items : List Json) : demand Json.array? (.array items) = .ok items := rfl

@[simp] theorem demand_string (s : Bytes) : demand Json.string? (.string s) = .ok s := rfl

@[simp] theorem is_object : is Json.object? (.object members) = true := rfl

theorem is_object_of_get? {name : Bytes} (h : j.get? name = some v) : is Json.object? j = true := by
  obtain ⟨members, rfl⟩ := object_of_get? h
  rfl

theorem has_of_get? (h : j.get? (ascii name) = some v) : has j name = true := by
  rw [has, h]
  rfl

theorem has_of_get?_none (h : j.get? (ascii name) = none) : has j name = false := by
  rw [has, h]
  rfl

theorem member_of_get? (h : j.get? (ascii name) = some v) : member j name = .ok v := by
  obtain ⟨members, rfl⟩ := object_of_get? h
  rw [member, Json.getMember, h]
  rfl

theorem remove_of_get? (h : j.get? (ascii name) = some v) : remove j name = .ok (j.erase (ascii name)) := by
  rw [remove, member_of_get? h]
  rfl

@[simp] theorem assign_object (name : Bytes) (v : Json) :
    assign (.object members) name v = .ok (.object (Ordered.insert name v members)) := rfl

theorem dump_of_encodable (h : j.encodable = true) : dump j = .ok j.render := by
  rw [dump, Json.dump?, if_pos h]

end Accesses

/-! ## Reading -/

def text (v : Json) : Except Raised (Option Bytes) := do
  if is Json.string? v then return some (← demand Json.string? v)
  return none

def textAt (j : Json) (name : String) : Except Raised (Option Bytes) := do
  if is Json.object? j then
    if has j name then
      return ← text (← member j name)
  return none

/-- The seconds of a time, which is a number or a text. -/
def time (v : Json) : Except Raised (Option Float) := do
  if is Json.number? v then
    let x ← demand Json.float? v
    return if Binary64.isFinite x && !(x < 0) then some x else none
  if is Json.string? v then
    return parseRfc3339? (← demand Json.string? v)
  return none

def timeAt (j : Json) (name : String) : Except Raised (Option Float) := do
  if has j name then
    return ← time (← member j name)
  return none

/-- The value at the end of a path of member names. -/
def walk (j : Json) : List String → Except Raised (Option Json)
  | [] => return some j
  | name :: rest => do
    if is Json.object? j then
      if has j name then
        return ← walk (← member j name) rest
    return none

def textIn (j : Json) (names : List String) : Except Raised (Option Bytes) := do
  match ← walk j names with
  | some v => text v
  | none => return none

section Reading

variable (v j : Json) (name : String)

theorem text_eq : text v = .ok v.string? := by
  cases v <;> rfl

theorem textAt_eq : textAt j name = .ok (j.text? name) := by
  unfold textAt Json.text?
  cases h : j.get? (ascii name) with
  | none => simp [has_of_get?_none h]
  | some v => simp [is_object_of_get? h, has_of_get? h, member_of_get? h, text_eq]

theorem time_eq : time v = .ok (Event.time? v) := by
  cases v <;> rfl

theorem timeAt_eq : timeAt j name = .ok (Event.timeAt? j name) := by
  unfold timeAt Event.timeAt?
  cases h : j.get? (ascii name) with
  | none => simp [has_of_get?_none h]
  | some v => simp [has_of_get? h, member_of_get? h, time_eq]

theorem walk_eq (names : List String) : walk j names = .ok (j.path? names) := by
  induction names generalizing j with
  | nil => rfl
  | cons name rest ih =>
    unfold walk Json.path?
    rw [List.foldlM_cons]
    cases h : j.get? (ascii name) with
    | none => simp [has_of_get?_none h]
    | some v =>
      simp only [is_object_of_get? h, has_of_get? h, member_of_get? h, if_true, ok_bind, ih]
      rfl

theorem textIn_eq (names : List String) : textIn j names = .ok ((j.path? names).bind Json.string?) := by
  rw [textIn, walk_eq, ok_bind]
  cases j.path? names with
  | none => rfl
  | some v => exact text_eq v

end Reading

/-! ## Catching -/

section Catching

variable {α β : Type} (step : α → Except Raised β)

/-- Takes what a step yields at a place, or the wording of what it raises there. -/
def collect : List β × List (α × Bytes) → α → Except Raised (List β × List (α × Bytes))
  | (found, errors), a => do
    try return (found ++ [← step a], errors)
    catch e => return (found, errors ++ [(a, e.message)])

/-- What a step raises at a place. -/
def errorAt? (a : α) : Option (α × Bytes) :=
  match step a with
  | .ok _ => none
  | .error e => some (a, e.message)

/-- **What is raised at one place stays there.** -/
theorem foldlM_collect (places : List α) (found : List β) (errors : List (α × Bytes)) :
    places.foldlM (collect step) (found, errors) =
      .ok (found ++ places.filterMap fun a => (step a).toOption,
        errors ++ places.filterMap (errorAt? step)) := by
  induction places generalizing found errors with
  | nil => simp
  | cons a rest ih =>
    rw [List.foldlM_cons, List.filterMap_cons, List.filterMap_cons]
    cases h : step a with
    | ok b =>
      have hcollect : collect step (found, errors) a = .ok (found ++ [b], errors) := by
        rw [collect, h]
        rfl
      have herror : errorAt? step a = none := by rw [errorAt?, h]
      rw [hcollect, ok_bind, ih, herror, List.append_assoc]
      rfl
    | error e =>
      have hcollect : collect step (found, errors) a = .ok (found, errors ++ [(a, e.message)]) := by
        rw [collect, h]
        rfl
      have herror : errorAt? step a = some (a, e.message) := by rw [errorAt?, h]
      rw [hcollect, ok_bind, ih, herror, List.append_assoc]
      rfl

end Catching

end Raising

end Telemetry

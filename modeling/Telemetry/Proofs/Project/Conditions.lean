import Telemetry.Proofs.Fallible
import Telemetry.Proofs.Glob
import Telemetry.Proofs.Json.Views
import Telemetry.Proofs.Project.Sections

/-!
# What conditions say

A condition is read off a tree of JSON values by the operator at each node.  Which trees are conditions
(`WellFormed`) and what such a tree says of an event (`Says`) are told of the tree itself, with nothing read.
A tree is read if it is well formed and else refused (`exists_read_iff`), and what is read off it holds of the
events of which it is true (`holds_iff_says`).  Both follow the tree down to its comparisons, through what
reading finds at each node (`Found`).
-/

namespace Telemetry.Condition

variable {j : Json} {op : Bytes} {c : Condition}

/-! ## Reading by the operator -/

/-- One text, or a list of texts. -/
inductive Texts : Json → List Bytes → Prop
  | one (s : Bytes) : Texts (.string s) [s]
  | list (values : List Bytes) : Texts (.array (values.map .string)) values

theorem readValues_eq_ok_iff {value : Json} {values : List Bytes} :
    readValues value = .ok values ↔ Texts value values := by
  cases value with
  | string s =>
    constructor
    · intro h
      cases h
      exact .one s
    · intro h
      cases h
      rfl
  | array items =>
    have hread : readValues (.array items) = .ok values ↔
        (Json.array items).strings? = some values := by
      rw [readValues]
      · cases (Json.array items).strings? <;> simp
      · exact nofun
    rw [hread, Json.strings?_eq_some]
    constructor
    · intro h
      rw [h]
      exact .list values
    · intro h
      cases h
      rfl
  | _ => exact iff_of_false nofun nofun

/-- A list of conditions under one of the two operators that take one. -/
def combine (op : Bytes) (inner : List Condition) : Condition :=
  if op = ascii "and" then .all inner else .any inner

theorem read_combined (hop : j.text? "op" = some op) (h : op = ascii "and" ∨ op = ascii "or") :
    read j = ((j.get? (ascii "inner")).bind Json.array?).elim (.error (.missingInnerList op))
      fun items => (items.mapM read).map (combine op) := by
  rw [read, hop]
  dsimp only
  rw [if_pos h]
  split
  · next items hget =>
    rw [hget, List.mapM_subtype fun c _ => rfl, List.unattach_attach]
    exact (map_eq_pure_bind _ _).symm
  · next hnone =>
    cases hget : j.get? (ascii "inner") with
    | none => rfl
    | some found =>
      cases found with
      | array items => exact absurd hget (hnone items)
      | _ => rfl

theorem read_negated (hop : j.text? "op" = some (ascii "not")) :
    read j = ((j.get? (ascii "inner")).bind Json.object?).elim (.error .missingInner)
      fun members => (read (.object members)).map .not := by
  rw [read, hop]
  dsimp only
  rw [if_neg (by decide), if_pos rfl]
  split
  · next members hget =>
    rw [hget]
    rfl
  · next hnone =>
    cases hget : j.get? (ascii "inner") with
    | none => rfl
    | some found =>
      cases found with
      | object members => exact absurd hget (hnone members)
      | _ => rfl

theorem readComparison_eq_ok_iff (op : Bytes) {field : Bytes} {values : List Bytes} :
    readComparison op j = .ok (field, values) ↔ j.get? (ascii "name") = some (.string field) ∧
      ∃ value, j.get? (ascii "value") = some value ∧ Texts value values := by
  unfold readComparison
  rw [← Json.text?_eq_some]
  cases j.text? "name" with
  | none => simp
  | some name =>
    cases j.get? (ascii "value") with
    | none => simp
    | some value => simp [map_eq_ok, readValues_eq_ok_iff, and_comm]

theorem read_equals (hop : j.text? "op" = some (ascii "eq")) : read j =
    (readComparison (ascii "eq") j).map fun (field, values) => .equals field values (readIgnoreCase j) := by
  rw [read, hop]
  rfl

theorem read_glob (hop : j.text? "op" = some (ascii "glob")) : read j =
    (readComparison (ascii "glob") j).map fun (field, values) => .glob field values := by
  rw [read, hop]
  rfl

def operators : List Bytes := [ascii "and", ascii "or", ascii "not", ascii "eq", ascii "glob"]

theorem not_mem_operators : op ∉ operators ↔
    op ≠ ascii "and" ∧ op ≠ ascii "or" ∧ op ≠ ascii "not" ∧ op ≠ ascii "eq" ∧ op ≠ ascii "glob" := by
  simp [operators]

theorem read_unknown (hop : j.text? "op" = some op) (h : op ∉ operators) :
    read j = .error (.unknownOperator op) := by
  obtain ⟨hand, hor, hnot, heq, hglob⟩ := not_mem_operators.mp h
  rw [read, hop]
  simp [hand, hor, hnot, heq, hglob]

theorem operator_cases (op : Bytes) : (op = ascii "and" ∨ op = ascii "or") ∨
    op = ascii "not" ∨ op = ascii "eq" ∨ op = ascii "glob" ∨ op ∉ operators := by
  simp only [operators, List.mem_cons, List.not_mem_nil, or_false]
  tauto

/-! ## Well-formed conditions -/

/-- A value that makes a condition, as do all that it is put together from. -/
inductive WellFormed : Json → Prop
  | combined {j : Json} {op : Bytes} {items : List Json}
      (hop : j.get? (ascii "op") = some (.string op)) (h : op = ascii "and" ∨ op = ascii "or")
      (hinner : j.get? (ascii "inner") = some (.array items)) (hitems : ∀ c ∈ items, WellFormed c) :
      WellFormed j
  | negated {j : Json} {members : List (Bytes × Json)}
      (hop : j.get? (ascii "op") = some (.string (ascii "not")))
      (hinner : j.get? (ascii "inner") = some (.object members)) (h : WellFormed (.object members)) :
      WellFormed j
  | comparison {j value : Json} {op name : Bytes} {values : List Bytes}
      (hop : j.get? (ascii "op") = some (.string op)) (h : op = ascii "eq" ∨ op = ascii "glob")
      (hname : j.get? (ascii "name") = some (.string name))
      (hvalue : j.get? (ascii "value") = some value) (hvalues : Texts value values) :
      WellFormed j

/-- What the reading of a condition finds. -/
inductive Found (j : Json) : Condition → Prop
  | combined {op : Bytes} {items : List Json} {inner : List Condition}
      (hop : j.get? (ascii "op") = some (.string op)) (h : op = ascii "and" ∨ op = ascii "or")
      (hinner : j.get? (ascii "inner") = some (.array items)) (hitems : items.mapM read = .ok inner) :
      Found j (combine op inner)
  | negated {members : List (Bytes × Json)} {inner : Condition}
      (hop : j.get? (ascii "op") = some (.string (ascii "not")))
      (hinner : j.get? (ascii "inner") = some (.object members)) (h : read (.object members) = .ok inner) :
      Found j (.not inner)
  | equals {value : Json} {field : Bytes} {values : List Bytes}
      (hop : j.get? (ascii "op") = some (.string (ascii "eq")))
      (hname : j.get? (ascii "name") = some (.string field))
      (hvalue : j.get? (ascii "value") = some value) (hvalues : Texts value values) :
      Found j (.equals field values (readIgnoreCase j))
  | glob {value : Json} {field : Bytes} {values : List Bytes}
      (hop : j.get? (ascii "op") = some (.string (ascii "glob")))
      (hname : j.get? (ascii "name") = some (.string field))
      (hvalue : j.get? (ascii "value") = some value) (hvalues : Texts value values) :
      Found j (.glob field values)

/-- What is read is one of these. -/
theorem found_of_read (h : read j = .ok c) : Found j c := by
  cases hop : j.text? "op" with
  | none =>
    rw [read, hop] at h
    cases h
  | some op =>
    have hget := Json.text?_eq_some.mp hop
    rcases operator_cases op with hcombined | rfl | rfl | rfl | hunknown
    · rw [read_combined hop hcombined] at h
      cases hinner : (j.get? (ascii "inner")).bind Json.array? with
      | none => simp [hinner] at h
      | some items =>
        rw [hinner] at h
        obtain ⟨inner, hitems, rfl⟩ := map_eq_ok.mp h
        exact .combined hget hcombined (Json.bind_array?_eq_some.mp hinner) hitems
    · rw [read_negated hop] at h
      cases hinner : (j.get? (ascii "inner")).bind Json.object? with
      | none => simp [hinner] at h
      | some members =>
        rw [hinner] at h
        obtain ⟨inner, hmembers, rfl⟩ := map_eq_ok.mp h
        exact .negated hget (Json.bind_object?_eq_some.mp hinner) hmembers
    · rw [read_equals hop] at h
      obtain ⟨⟨field, values⟩, hcomparison, rfl⟩ := map_eq_ok.mp h
      obtain ⟨hname, value, hvalue, hvalues⟩ := (readComparison_eq_ok_iff _).mp hcomparison
      exact .equals hget hname hvalue hvalues
    · rw [read_glob hop] at h
      obtain ⟨⟨field, values⟩, hcomparison, rfl⟩ := map_eq_ok.mp h
      obtain ⟨hname, value, hvalue, hvalues⟩ := (readComparison_eq_ok_iff _).mp hcomparison
      exact .glob hget hname hvalue hvalues
    · rw [read_unknown hop hunknown] at h
      cases h

theorem wellFormed_of_read {j : Json} {c : Condition} (h : read j = .ok c) : WellFormed j := by
  cases found_of_read h with
  | combined hop hcombined hinner hitems =>
    refine .combined hop hcombined hinner ?_
    intro item hitem
    obtain ⟨inner, hread⟩ := exists_forall₂_iff.mp ⟨_, mapM_eq_ok_iff.mp hitems⟩ item hitem
    have hlt := Json.sizeOf_lt_of_mem_array hinner hitem
    exact wellFormed_of_read hread
  | negated hop hinner hread =>
    have hlt := Json.sizeOf_lt_of_get? hinner
    exact .negated hop hinner (wellFormed_of_read hread)
  | equals hop hname hvalue hvalues => exact .comparison hop (.inl rfl) hname hvalue hvalues
  | glob hop hname hvalue hvalues => exact .comparison hop (.inr rfl) hname hvalue hvalues
termination_by sizeOf j
decreasing_by all_goals exact hlt

theorem WellFormed.exists_read (h : WellFormed j) : ∃ c, read j = .ok c := by
  induction h with
  | @combined _ op _ hop hcombined hinner _ ih =>
    obtain ⟨inner, hitems⟩ := exists_forall₂_iff.mpr ih
    refine ⟨combine op inner, ?_⟩
    rw [read_combined (Json.text?_eq_some.mpr hop) hcombined, Json.bind_array?_eq_some.mpr hinner]
    exact map_eq_ok.mpr ⟨inner, mapM_eq_ok_iff.mpr hitems, rfl⟩
  | negated hop hinner _ ih =>
    obtain ⟨inner, hread⟩ := ih
    refine ⟨.not inner, ?_⟩
    rw [read_negated (Json.text?_eq_some.mpr hop), Json.bind_object?_eq_some.mpr hinner]
    exact map_eq_ok.mpr ⟨inner, hread, rfl⟩
  | comparison hop hcomparison hname hvalue hvalues =>
    have hread := fun op => (readComparison_eq_ok_iff op).mpr ⟨hname, _, hvalue, hvalues⟩
    rcases hcomparison with rfl | rfl
    · exact ⟨_, (read_equals (Json.text?_eq_some.mpr hop)).trans (map_eq_ok.mpr ⟨_, hread _, rfl⟩)⟩
    · exact ⟨_, (read_glob (Json.text?_eq_some.mpr hop)).trans (map_eq_ok.mpr ⟨_, hread _, rfl⟩)⟩

theorem exists_read_iff : (∃ c, read j = .ok c) ↔ WellFormed j :=
  ⟨fun ⟨_, h⟩ => wellFormed_of_read h, WellFormed.exists_read⟩

/-! ## Meaning -/

/-- A rule names one of three fields, and the event has a text there. -/
def Named (event j : Json) (text : Bytes) : Prop :=
  ∃ key ∈ ["release", "environment", "transaction"],
    j.get? (ascii "name") = some (.string (ascii "event." ++ ascii key)) ∧
      event.get? (ascii key) = some (.string text)

/-- One of the values that a comparison lists. -/
def Valued (j : Json) (v : Bytes) : Prop :=
  ∃ value values, j.get? (ascii "value") = some value ∧ Texts value values ∧ v ∈ values

def IgnoresCase (j : Json) : Prop :=
  ∃ options, j.get? (ascii "options") = some options ∧
    options.get? (ascii "ignoreCase") = some (.bool true)

theorem sizeOf_lt_of_mem_items {name : String} {item : Json} (h : item ∈ Config.items j name) :
    sizeOf item < sizeOf j := by
  unfold Config.items at h
  cases hget : (j.get? (ascii name)).bind Json.array? with
  | none => simp [hget] at h
  | some items =>
    rw [hget, Option.getD_some] at h
    exact Json.sizeOf_lt_of_mem_array (Json.bind_array?_eq_some.mp hget) h

/-- What a value says about an event if it is a condition. -/
def Says (event j : Json) : Prop :=
  match j.text? "op" with
  | none => False
  | some op =>
    if op = ascii "and" then ∀ c ∈ Config.items j "inner", Says event c
    else if op = ascii "or" then ∃ c, ∃ _ : c ∈ Config.items j "inner", Says event c
    else if op = ascii "not" then ∀ inner ∈ j.get? (ascii "inner"), ¬Says event inner
    else if op = ascii "eq" then
      ∃ text v, Named event j text ∧ Valued j v ∧
        (v = text ∨ IgnoresCase j ∧ Bytes.lower v = Bytes.lower text)
    else if op = ascii "glob" then
      ∃ text v, Named event j text ∧ Valued j v ∧ Glob.Decomposes false v text
    else False
termination_by sizeOf j
decreasing_by
  · exact sizeOf_lt_of_mem_items ‹_›
  · exact sizeOf_lt_of_mem_items ‹_›
  · exact Json.sizeOf_lt_of_get? ‹_›

section Meaning

variable {event : Json} {text v field : Bytes} {values : List Bytes} {value : Json}

/-! ### The parts of a comparison -/

theorem field?_eq_some_iff : Event.field? event field = some text ↔
    ∃ key ∈ ["release", "environment", "transaction"],
      field = ascii "event." ++ ascii key ∧ event.get? (ascii key) = some (.string text) := by
  constructor
  · intro h
    obtain ⟨key, hkey, htext⟩ := Option.bind_eq_some_iff.mp h
    obtain ⟨before, after, hknown, -⟩ := List.lookup_eq_some_iff.mp hkey
    have hmem : (field, key) ∈ Event.knownFields := by simp [hknown]
    simp only [Event.knownFields, List.mem_cons, Prod.mk.injEq, List.not_mem_nil, or_false] at hmem
    rcases hmem with ⟨rfl, rfl⟩ | ⟨rfl, rfl⟩ | ⟨rfl, rfl⟩ <;>
      exact ⟨_, by simp, rfl, Json.text?_eq_some.mp htext⟩
  · intro h
    obtain ⟨key, hkey, rfl, htext⟩ := h
    have hlookup : Event.knownFields.lookup (ascii "event." ++ ascii key) = some key := by
      simp only [List.mem_cons, List.not_mem_nil, or_false] at hkey
      rcases hkey with rfl | rfl | rfl <;> rfl
    rw [Event.field?, hlookup]
    exact Json.text?_eq_some.mpr htext

theorem named_iff (hname : j.get? (ascii "name") = some (.string field)) :
    Named event j text ↔ Event.field? event field = some text := by
  rw [field?_eq_some_iff, Named, hname]
  simp only [Option.some.injEq, Json.string.injEq]

theorem valued_iff (hvalue : j.get? (ascii "value") = some value) (hvalues : Texts value values) :
    Valued j v ↔ v ∈ values := by
  constructor
  · intro h
    obtain ⟨value', values', hvalue', hvalues', hv⟩ := h
    obtain rfl := Option.some.inj (hvalue.symm.trans hvalue')
    have hread := (readValues_eq_ok_iff.mpr hvalues).symm.trans (readValues_eq_ok_iff.mpr hvalues')
    rwa [Except.ok.inj hread]
  · exact fun hv => ⟨value, values, hvalue, hvalues, hv⟩

theorem readIgnoreCase_iff : readIgnoreCase j = true ↔ IgnoresCase j := by
  have hpath : j.path? ["options", "ignoreCase"] =
      (j.get? (ascii "options")).bind fun options => options.get? (ascii "ignoreCase") := by
    simp [Json.path?]
  rw [readIgnoreCase, hpath, IgnoresCase]
  cases j.get? (ascii "options") with
  | none => simp
  | some options =>
    cases hflag : options.get? (ascii "ignoreCase") with
    | none => simp [hflag]
    | some flag => cases flag <;> simp [hflag, Json.bool?]

theorem sameText_iff {ignoreCase : Bool} {a b : Bytes} : sameText ignoreCase a b = true ↔
    a = b ∨ ignoreCase = true ∧ Bytes.lower a = Bytes.lower b := by
  cases ignoreCase with
  | false => simp [sameText]
  | true =>
    have hlower : a = b → Bytes.lower a = Bytes.lower b := congrArg Bytes.lower
    simpa [sameText] using hlower

theorem matchesText_iff : Glob.matchesText v text = true ↔ Glob.Decomposes false v text :=
  (Glob.matchesText_iff_fits v text false).trans Glob.fits_iff_made

/-! ### The meaning of each operator -/

theorem allHold_iff {inner : List Condition} :
    allHold event inner = true ↔ ∀ c ∈ inner, c.holds event = true := by
  induction inner with
  | nil => simp [allHold]
  | cons c rest ih => simp [allHold, ih]

theorem anyHolds_iff {inner : List Condition} :
    anyHolds event inner = true ↔ ∃ c ∈ inner, c.holds event = true := by
  induction inner with
  | nil => simp [anyHolds]
  | cons c rest ih => simp [anyHolds, ih]

theorem holds_equals_iff {ignoreCase : Bool} : (equals field values ignoreCase).holds event = true ↔
    ∃ text v, Event.field? event field = some text ∧ v ∈ values ∧
      (v = text ∨ ignoreCase = true ∧ Bytes.lower v = Bytes.lower text) := by
  rw [holds]
  cases Event.field? event field with
  | none => simp
  | some text => simp [sameText_iff]

theorem holds_glob_iff : (glob field values).holds event = true ↔
    ∃ text v, Event.field? event field = some text ∧ v ∈ values ∧ Glob.Decomposes false v text := by
  rw [holds]
  cases Event.field? event field with
  | none => simp
  | some text => simp [matchesText_iff]

theorem says_negated (hop : j.get? (ascii "op") = some (.string (ascii "not"))) {inner : Json}
    (hinner : j.get? (ascii "inner") = some inner) : Says event j ↔ ¬Says event inner := by
  rw [Says, Json.text?_eq_some.mpr hop, hinner]
  simp [show ascii "not" ≠ ascii "and" by decide, show ascii "not" ≠ ascii "or" by decide]

theorem says_and (hop : j.get? (ascii "op") = some (.string (ascii "and"))) {items : List Json}
    (hinner : j.get? (ascii "inner") = some (.array items)) :
    Says event j ↔ ∀ c ∈ items, Says event c := by
  have hitems : Config.items j "inner" = items := by
    rw [Config.items, hinner]
    rfl
  rw [Says, Json.text?_eq_some.mpr hop, hitems]
  simp

theorem says_or (hop : j.get? (ascii "op") = some (.string (ascii "or"))) {items : List Json}
    (hinner : j.get? (ascii "inner") = some (.array items)) :
    Says event j ↔ ∃ c ∈ items, Says event c := by
  have hitems : Config.items j "inner" = items := by
    rw [Config.items, hinner]
    rfl
  rw [Says, Json.text?_eq_some.mpr hop, hitems]
  simp [show ascii "or" ≠ ascii "and" by decide]

theorem says_equals (hop : j.get? (ascii "op") = some (.string (ascii "eq"))) : Says event j ↔
    ∃ text v, Named event j text ∧ Valued j v ∧
      (v = text ∨ IgnoresCase j ∧ Bytes.lower v = Bytes.lower text) := by
  rw [Says, Json.text?_eq_some.mpr hop]
  rfl

theorem says_glob (hop : j.get? (ascii "op") = some (.string (ascii "glob"))) : Says event j ↔
    ∃ text v, Named event j text ∧ Valued j v ∧ Glob.Decomposes false v text := by
  rw [Says, Json.text?_eq_some.mpr hop]
  rfl

/-- A condition that is read holds of what its value says. -/
theorem holds_iff_says {j : Json} {c : Condition} (h : read j = .ok c) :
    c.holds event = true ↔ Says event j := by
  cases found_of_read h with
  | @combined op items inner hop hcombined hinner hitems =>
    have ih : ∀ item ∈ items, ∀ c, read item = .ok c → (c.holds event = true ↔ Says event item) := by
      intro item hitem c hread
      have hlt := Json.sizeOf_lt_of_mem_array hinner hitem
      exact holds_iff_says hread
    rcases hcombined with rfl | rfl
    · rw [says_and hop hinner, ← forall_iff_of_mapM_eq_ok hitems ih]
      exact allHold_iff
    · rw [says_or hop hinner, ← exists_iff_of_mapM_eq_ok hitems ih]
      exact anyHolds_iff
  | negated hop hinner hread =>
    have hlt := Json.sizeOf_lt_of_get? hinner
    rw [says_negated hop hinner, holds, ← holds_iff_says hread, Bool.not_eq_true', Bool.not_eq_true]
  | equals hop hname hvalue hvalues =>
    rw [says_equals hop, holds_equals_iff]
    simp only [named_iff hname, valued_iff hvalue hvalues, readIgnoreCase_iff]
  | glob hop hname hvalue hvalues =>
    rw [says_glob hop, holds_glob_iff]
    simp only [named_iff hname, valued_iff hvalue hvalues]
termination_by sizeOf j
decreasing_by all_goals exact hlt

end Meaning

end Telemetry.Condition

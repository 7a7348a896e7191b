import Telemetry.Proofs.Extraction.Raising
import Telemetry.Proofs.Project.Conditions

/-!
# Reading rules with accesses that raise

Conditions and sampling rules as they are read access by access, each asked for before it is made.  What
is refused with a fault of its own is caught where the rules are listed; an access that raised would not
be.  No access raises: a value is read or refused as the readers of the library read or refuse it
(`condition_eq`, `rule_eq`), and a list of rules is always read (`sampling_eq`).
-/

namespace Telemetry.Raising

/-! ## Refusals -/

/-- What ends the reading of a rule: a fault that it reports, or an access that raises. -/
inductive Refusal (φ : Type) where
  | fault (f : φ)
  | raised (r : Raised)

def Refusal.map {φ ψ : Type} (g : φ → ψ) : Refusal φ → Refusal ψ
  | .fault f => .fault (g f)
  | .raised r => .raised r

/-- Refuses with a fault. -/
def refuse {φ α : Type} (f : φ) : Except (Refusal φ) α := .error (.fault f)

/-- An access, with what it is known to yield. -/
def access {φ α : Type} (x : Except Raised α) : Except (Refusal φ) {a : α // x = .ok a} :=
  match x with
  | .ok a => .ok ⟨a, rfl⟩
  | .error r => .error (.raised r)

theorem get?_of_member {j v : Json} {name : String} (h : member j name = .ok v) :
    j.get? (ascii name) = some v := by
  cases hget : j.get? (ascii name) with
  | none =>
    rw [member, Json.getMember, hget] at h
    cases j <;> cases h
  | some w => rw [Except.ok.inj ((member_of_get? hget).symm.trans h)]

theorem sizeOf_lt_of_member {j v : Json} {name : String} (h : member j name = .ok v) :
    sizeOf v < sizeOf j :=
  Json.sizeOf_lt_of_get? (get?_of_member h)

theorem array_of_demand {j : Json} {items : List Json} (h : demand Json.array? j = .ok items) :
    j = .array items := by
  cases j with
  | array items' => rw [Except.ok.inj h]
  | _ => cases h

theorem access_of_eq {φ α : Type} {x : Except Raised α} {a : α} (h : x = .ok a) :
    access (φ := φ) x = .ok ⟨a, h⟩ := by
  subst h
  rfl

/-- A member that has to be a string. -/
def requiredText {φ : Type} (missing : φ) (j : Json) (name : String) : Except (Refusal φ) Bytes := do
  if has j name then
    let ⟨v, _⟩ ← access (member j name)
    if is Json.string? v then
      return (← access (demand Json.string? v)).1
  refuse missing

/-! ## Conditions -/

/-- One string or a list of strings. -/
def values (j : Json) : Except (Refusal Condition.Fault) (List Bytes) := do
  if is Json.string? j then return [(← access (demand Json.string? j)).1]
  if !is Json.array? j then refuse .valueNotStrings
  (← access (demand Json.array? j)).1.mapM fun item => do
    if !is Json.string? item then refuse .valueNotStrings
    return (← access (demand Json.string? item)).1

def comparison (op : Bytes) (j : Json) : Except (Refusal Condition.Fault) (Bytes × List Bytes) := do
  let field ← requiredText (.missingField op) j "name"
  if !has j "value" then refuse (.missingValue op)
  return (field, ← values (← access (member j "value")).1)

def ignoreCase {φ : Type} (j : Json) : Except (Refusal φ) Bool := do
  match (← access (walk j ["options", "ignoreCase"])).1 with
  | some v =>
    if is Json.bool? v then return (← access (demand Json.bool? v)).1
    return false
  | none => return false

def condition (j : Json) : Except (Refusal Condition.Fault) Condition := do
  let op ← requiredText .missingOperator j "op"
  if op = ascii "and" ∨ op = ascii "or" then
    if !has j "inner" then refuse (.missingInnerList op)
    let ⟨found, hfound⟩ ← access (member j "inner")
    if !is Json.array? found then refuse (.missingInnerList op)
    let ⟨items, hitems⟩ ← access (demand Json.array? found)
    let inner ← items.attach.mapM fun ⟨c, hc⟩ =>
      have : sizeOf c < sizeOf j := by
        have := List.sizeOf_lt_of_mem hc
        have := sizeOf_lt_of_member hfound
        simp only [array_of_demand hitems, Json.array.sizeOf_spec] at *
        omega
      condition c
    return if op = ascii "and" then .all inner else .any inner
  else if op = ascii "not" then
    if !has j "inner" then refuse .missingInner
    let ⟨found, hfound⟩ ← access (member j "inner")
    if !is Json.object? found then refuse .missingInner
    have := sizeOf_lt_of_member hfound
    return .not (← condition found)
  else if op = ascii "eq" then
    let (field, values) ← comparison op j
    return .equals field values (← ignoreCase j)
  else if op = ascii "glob" then
    let (field, values) ← comparison op j
    return .glob field values
  else refuse (.unknownOperator op)
termination_by sizeOf j

section Conditions

variable {φ : Type} (j : Json)

theorem requiredText_eq (missing : φ) (name : String) :
    requiredText missing j name = (j.text? name).elim (refuse missing) .ok := by
  unfold requiredText Json.text?
  cases h : j.get? (ascii name) with
  | none =>
    rw [has_of_get?_none h]
    rfl
  | some v =>
    rw [has_of_get? h, if_pos rfl, access_of_eq (member_of_get? h)]
    cases v <;> rfl

theorem values_eq : values j = (Condition.readValues j).mapError .fault := by
  cases j with
  | array items =>
    have hitem : ∀ items : List Json, (items.mapM fun item => do
          if !is Json.string? item then refuse .valueNotStrings
          return (← access (demand Json.string? item)).1) =
        (items.mapM Json.string?).elim (refuse Condition.Fault.valueNotStrings) .ok := by
      intro items
      induction items with
      | nil => rfl
      | cons item rest ih =>
        rw [List.mapM_cons, List.mapM_cons, ih]
        cases item with
        | string s => cases rest.mapM Json.string? <;> rfl
        | _ => rfl
    refine (hitem items).trans ?_
    unfold Condition.readValues Json.strings?
    cases hs : items.mapM Json.string? <;> simp [Json.array?, hs, Except.mapError, refuse]
  | _ => rfl

theorem comparison_eq (op : Bytes) :
    comparison op j = (Condition.readComparison op j).mapError .fault := by
  unfold comparison Condition.readComparison
  rw [requiredText_eq]
  cases j.text? "name" with
  | none => rfl
  | some field =>
    cases h : j.get? (ascii "value") with
    | none =>
      rw [has_of_get?_none h]
      rfl
    | some value =>
      rw [has_of_get? h, access_of_eq (member_of_get? h)]
      simp only [Option.elim_some, ok_bind, values_eq]
      cases Condition.readValues value <;> rfl

theorem ignoreCase_eq : ignoreCase (φ := φ) j = .ok (Condition.readIgnoreCase j) := by
  unfold ignoreCase Condition.readIgnoreCase
  rw [access_of_eq (walk_eq j _), ok_bind]
  dsimp only
  cases j.path? ["options", "ignoreCase"] with
  | none => rfl
  | some v => cases v <;> rfl

variable {j} {op : Bytes}

theorem condition_combined (hop : j.text? "op" = some op) (h : op = ascii "and" ∨ op = ascii "or") :
    condition j = ((j.get? (ascii "inner")).bind Json.array?).elim (refuse (.missingInnerList op))
      fun items => (items.mapM condition).map (Condition.combine op) := by
  rw [condition, requiredText_eq, hop, Option.elim_some, ok_bind, if_pos h]
  cases hinner : j.get? (ascii "inner") with
  | none =>
    rw [has_of_get?_none hinner]
    rfl
  | some found =>
    rw [has_of_get? hinner, access_of_eq (member_of_get? hinner)]
    cases found with
    | array items =>
      show (items.attach.mapM fun c => condition c.1) >>= (pure <| Condition.combine op ·) = _
      rw [List.mapM_subtype fun _ _ => rfl, List.unattach_attach]
      exact (map_eq_pure_bind _ _).symm
    | _ => rfl

theorem condition_negated (hop : j.text? "op" = some (ascii "not")) :
    condition j = ((j.get? (ascii "inner")).bind Json.object?).elim (refuse .missingInner)
      fun members => (condition (.object members)).map .not := by
  rw [condition, requiredText_eq, hop, Option.elim_some, ok_bind, if_neg (by decide), if_pos rfl]
  cases hinner : j.get? (ascii "inner") with
  | none =>
    rw [has_of_get?_none hinner]
    rfl
  | some found =>
    rw [has_of_get? hinner, access_of_eq (member_of_get? hinner)]
    cases found with
    | object members => cases condition (.object members) <;> rfl
    | _ => rfl

theorem condition_equals (hop : j.text? "op" = some (ascii "eq")) :
    condition j = (Condition.read j).mapError .fault := by
  rw [condition, Condition.read_equals hop, requiredText_eq, hop, Option.elim_some, ok_bind,
    if_neg (by decide), if_neg (by decide), if_pos rfl, comparison_eq]
  cases Condition.readComparison (ascii "eq") j with
  | error e => rfl
  | ok compared =>
    show ignoreCase j >>= (pure <| Condition.equals compared.1 compared.2 ·) = _
    rw [ignoreCase_eq]
    rfl

theorem condition_glob (hop : j.text? "op" = some (ascii "glob")) :
    condition j = (Condition.read j).mapError .fault := by
  rw [condition, Condition.read_glob hop, requiredText_eq, hop, Option.elim_some, ok_bind,
    if_neg (by decide), if_neg (by decide), if_neg (by decide), if_pos rfl, comparison_eq]
  cases Condition.readComparison (ascii "glob") j <;> rfl

theorem condition_unknown (hop : j.text? "op" = some op) (h : op ∉ Condition.operators) :
    condition j = (Condition.read j).mapError .fault := by
  obtain ⟨hand, hor, hnot, heq, hglob⟩ := Condition.not_mem_operators.mp h
  rw [condition, Condition.read_unknown hop h, requiredText_eq, hop]
  simp [hand, hor, hnot, heq, hglob, refuse, Except.mapError]

/-- **Reading a condition raises nothing but the fault that it reports.** -/
theorem condition_eq {j : Json} : condition j = (Condition.read j).mapError .fault := by
  cases hop : j.text? "op" with
  | none =>
    rw [condition, requiredText_eq, Condition.read, hop]
    rfl
  | some op =>
    rcases Condition.operator_cases op with hcombined | rfl | rfl | rfl | hunknown
    · rw [condition_combined hop hcombined, Condition.read_combined hop hcombined]
      cases hinner : (j.get? (ascii "inner")).bind Json.array? with
      | none => rfl
      | some items =>
        have ih : ∀ item ∈ items, condition item = (Condition.read item).mapError .fault := by
          intro item hitem
          have hlt := Json.sizeOf_lt_of_mem_array (Json.bind_array?_eq_some.mp hinner) hitem
          exact condition_eq
        rw [Option.elim_some, Option.elim_some, mapM_eq_mapError ih]
        cases items.mapM Condition.read <;> rfl
    · rw [condition_negated hop, Condition.read_negated hop]
      cases hinner : (j.get? (ascii "inner")).bind Json.object? with
      | none => rfl
      | some members =>
        have hlt := Json.sizeOf_lt_of_get? (Json.bind_object?_eq_some.mp hinner)
        rw [Option.elim_some, Option.elim_some, condition_eq]
        cases Condition.read (.object members) <;> rfl
    · exact condition_equals hop
    · exact condition_glob hop
    · exact condition_unknown hop hunknown
termination_by sizeOf j
decreasing_by all_goals exact hlt

/-- **A condition is read exactly from the well-formed values, and holds of an event if what its value says
of the event is so.**  Every other value, however deep its fault, is refused with a fault; neither reading
nor evaluating raises anything else. -/
theorem condition_says (j : Json) :
    condition j = (Condition.read j).mapError .fault ∧
    ((∃ c, condition j = .ok c) ↔ Condition.WellFormed j) ∧
    (¬Condition.WellFormed j → ∃ f : Condition.Fault, condition j = .error (.fault f)) ∧
    ∀ c, condition j = .ok c → ∀ event,
      holds event c = .ok (c.holds event) ∧ (c.holds event = true ↔ Condition.Says event j) := by
  have hok : ∀ c, condition j = .ok c ↔ Condition.read j = .ok c := by
    intro c
    rw [condition_eq, mapError_eq_ok]
  have hread : (∃ c, condition j = .ok c) ↔ Condition.WellFormed j := by
    simp only [hok]
    exact Condition.exists_read_iff
  refine ⟨condition_eq, hread, ?_, ?_⟩
  · intro hmalformed
    cases h : Condition.read j with
    | error f => exact ⟨f, by rw [condition_eq, h]; rfl⟩
    | ok c => exact absurd (hread.mp ⟨c, (hok c).mpr h⟩) hmalformed
  · intro c hc event
    exact ⟨holds_eq event c, Condition.holds_iff_says ((hok c).mp hc)⟩

/-- A negation of a comparison in a list of conditions. -/
theorem condition_says_nested :
    let equal := Json.object [(ascii "name", .string (ascii "event.release")),
      (ascii "op", .string (ascii "eq")),
      (ascii "value", .array [.string (ascii "1.0"), .string (ascii "1.1")])]
    let negated := Json.object [(ascii "inner", equal), (ascii "op", .string (ascii "not"))]
    let all := Json.object [(ascii "inner", .array [negated, negated]), (ascii "op", .string (ascii "and"))]
    ∃ c, condition all = .ok c ∧ ∀ event, c.holds event = true ↔ Condition.Says event all := by
  intro equal negated all
  have hequal : Condition.WellFormed equal :=
    .comparison rfl (.inl rfl) rfl rfl (.list [ascii "1.0", ascii "1.1"])
  have hnegated : Condition.WellFormed negated := .negated rfl rfl hequal
  have hall : Condition.WellFormed all := .combined rfl (.inl rfl) rfl (by simpa using hnegated)
  obtain ⟨-, hread, -, hmeaning⟩ := condition_says all
  obtain ⟨c, hc⟩ := hread.mpr hall
  exact ⟨c, hc, fun event => (hmeaning c hc event).2⟩

end Conditions

/-! ## Sampling rules -/

/-- The id of a rule: an integer that is not negative as a signed word, else 0. -/
def ruleId {φ : Type} (j : Json) : Except (Refusal φ) UInt64 := do
  if has j "id" then
    let ⟨v, _⟩ ← access (member j "id")
    if is Json.number? v then
      let n := (← access (demand Json.number? v)).1
      if n.isInteger && 0 ≤ n.toWord.toInt64 then return n.toWord
  return 0

def rate (j : Json) : Except (Refusal Sampling.Fault) Float := do
  if has j "sampleRate" then
    let ⟨v, _⟩ ← access (member j "sampleRate")
    if is Json.number? v then
      let rate := (← access (demand Json.float? v)).1
      if rate < 0 || 1 < rate then refuse .rateOutOfRange
      return rate
  refuse .missingRate

def subject (j : Json) : Except (Refusal Sampling.Fault) Sampling.Subject := do
  let name ← requiredText .missingSubject j "type"
  if name = ascii "transaction" then return .transaction
  if name = ascii "trace" then return .trace
  refuse (.unknownSubject name)

def ruleCondition (j : Json) : Except (Refusal Sampling.Fault) Condition := do
  if !has j "condition" then refuse .missingCondition
  (condition (← access (member j "condition")).1).mapError (Refusal.map .condition)

def rule (j : Json) : Except (Refusal Sampling.Fault) Sampling.Rule := do
  if !is Json.object? j then refuse .notObject
  let id ← ruleId j
  let rate ← rate j
  let subject ← subject j
  let condition ← ruleCondition j
  return ⟨id, subject, rate, condition⟩

/-- A rule, or nothing if it is refused; an access that raises is not caught. -/
def caught (j : Json) : Except Raised (Option Sampling.Rule) :=
  match rule j with
  | .ok r => .ok (some r)
  | .error (.fault _) => .ok none
  | .error (.raised e) => .error e

def sampling (j : Json) : Except Raised Sampling := do
  match ← walk j ["rules"] with
  | some found =>
    if is Json.array? found then
      let rules ← (← demand Json.array? found).mapM caught
      return ⟨rules.filterMap id⟩
    return ⟨[]⟩
  | none => return ⟨[]⟩

section Sampling

theorem toInt64_nonneg (n : UInt64) : 0 ≤ n.toInt64 ↔ n < 0x8000000000000000 := by
  have hbound : (0x8000000000000000 : UInt64).toNat = 2 ^ 63 := rfl
  rw [Int64.le_iff_toInt_le, Int64.toInt_zero, ← Int64.toInt_toBitVec, UInt64.toBitVec_toInt64,
    BitVec.toInt_pos_iff, UInt64.toNat_toBitVec, UInt64.lt_iff_toNat_lt, hbound]
  omega

variable (j : Json)

theorem ruleId_eq {φ : Type} : ruleId (φ := φ) j = .ok (Sampling.readId j) := by
  unfold ruleId Sampling.readId
  cases h : j.get? (ascii "id") with
  | none =>
    rw [has_of_get?_none h]
    rfl
  | some v =>
    rw [has_of_get? h, access_of_eq (member_of_get? h)]
    cases v with
    | number n =>
      cases n with
      | unsigned n =>
        show (if decide (0 ≤ n.toInt64) = true then pure n else pure 0) =
          Except.ok (if n < 0x8000000000000000 then n else 0)
        simp only [decide_eq_true_eq, toInt64_nonneg]
        split_ifs <;> rfl
      | signed i =>
        show (if decide (0 ≤ i.toUInt64.toInt64) = true then pure i.toUInt64 else pure 0) =
          Except.ok (if 0 ≤ i then i.toUInt64 else 0)
        simp only [decide_eq_true_eq, Int64.toInt64_toUInt64]
        split_ifs <;> rfl
      | float x => rfl
    | _ => rfl

theorem rate_eq : rate j = (Sampling.readRate j).mapError .fault := by
  unfold rate Sampling.readRate
  cases h : j.get? (ascii "sampleRate") with
  | none =>
    rw [has_of_get?_none h]
    rfl
  | some v =>
    rw [has_of_get? h, access_of_eq (member_of_get? h)]
    cases v with
    | number n =>
      show (if (n.toFloat < 0 || 1 < n.toFloat) = true then _ else _) =
        (if n.toFloat < 0 || 1 < n.toFloat then Except.error Sampling.Fault.rateOutOfRange
          else .ok n.toFloat).mapError Refusal.fault
      split_ifs <;> rfl
    | _ => rfl

theorem subject_eq : subject j = (Sampling.readSubject j).mapError .fault := by
  unfold subject Sampling.readSubject
  rw [requiredText_eq]
  cases j.text? "type" with
  | none => rfl
  | some name =>
    simp only [Option.elim_some, ok_bind]
    split_ifs <;> rfl

theorem ruleCondition_eq : ruleCondition j = (Sampling.readCondition j).mapError .fault := by
  unfold ruleCondition Sampling.readCondition
  cases h : j.get? (ascii "condition") with
  | none =>
    rw [has_of_get?_none h]
    rfl
  | some c =>
    rw [has_of_get? h, access_of_eq (member_of_get? h), ok_bind, condition_eq]
    dsimp only
    cases Condition.read c <;> rfl

theorem rule_eq : rule j = (Sampling.Rule.read j).mapError .fault := by
  unfold rule Sampling.Rule.read
  cases j with
  | object members =>
    simp only [is_object, ruleId_eq, rate_eq, subject_eq, ruleCondition_eq, ok_bind]
    cases Sampling.readRate (.object members) with
    | error e => rfl
    | ok rate =>
      cases Sampling.readSubject (.object members) with
      | error e => rfl
      | ok subject => cases Sampling.readCondition (.object members) <;> rfl
  | _ => rfl

/-- **The rules of any value are read, and each that is refused is left out.** -/
theorem sampling_eq : sampling j = .ok (Sampling.read j) := by
  have hcaught : ∀ r, caught r = .ok (Sampling.Rule.read r).toOption := by
    intro r
    rw [caught, rule_eq]
    cases Sampling.Rule.read r <;> rfl
  unfold sampling Sampling.read
  have hrules : j.path? ["rules"] = j.get? (ascii "rules") := by simp [Json.path?]
  rw [walk_eq, hrules, ok_bind]
  cases j.get? (ascii "rules") with
  | none => rfl
  | some found =>
    cases found with
    | array rules =>
      simp only [is, Json.array?, Option.isSome_some, if_true, demand_array, ok_bind,
        mapM_eq_ok_map hcaught, List.filterMap_map]
      rfl
    | _ => rfl

end Sampling

end Telemetry.Raising

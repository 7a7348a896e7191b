import Telemetry.Proofs.Binary64.Operations
import Telemetry.Proofs.Project.Raising

/-!
# Sampling by the first rule that applies

Doubles are taken for what they stand for.  A readable rule keeps an event if the hash of its id, or 0 without
an id, is below the rate times `2 ^ 32` (`keep_iff`): positions and their bounds are exact, so a rate of 1
keeps every event and a rate of 0 none.  Of a list the first readable rule that applies decides (`first?`),
whatever stands after it, and what cannot be read might as well not be there.  A larger rate keeps what the
smaller one kept, in any list (`keep_of_rateRaised`).
-/

namespace Telemetry.Sampling

open Binary64 (isFinite value)

variable {event : Json} {subject : Subject}

/-! ## Positions -/

/-- The text that an event is sampled by. -/
inductive IdOf (event : Json) : Subject → Bytes → Prop
  | transaction {id : Bytes} (h : event.get? (ascii "event_id") = some (.string id)) :
      IdOf event .transaction id
  | trace {contexts trace : Json} {id : Bytes} (hcontexts : event.get? (ascii "contexts") = some contexts)
      (htrace : contexts.get? (ascii "trace") = some trace)
      (h : trace.get? (ascii "trace_id") = some (.string id)) : IdOf event .trace id

/-- The hash that an event is sampled by: that of its id, or 0 without one. -/
inductive HashOf (event : Json) (subject : Subject) : Nat → Prop
  | id {id : Bytes} (h : IdOf event subject id) : HashOf event subject (Fnv.hash32 id).toNat
  | none (h : ∀ id, ¬IdOf event subject id) : HashOf event subject 0

theorem idOf?_eq_some_iff {id : Bytes} : idOf? event subject = some id ↔ IdOf event subject id := by
  cases subject with
  | transaction =>
    rw [idOf?, Json.text?_eq_some]
    constructor
    · exact .transaction
    · intro h
      cases h with
      | transaction h => exact h
  | trace =>
    have hpath : event.path? ["contexts", "trace", "trace_id"] =
        (event.get? (ascii "contexts")).bind fun contexts =>
          (contexts.get? (ascii "trace")).bind fun trace => trace.get? (ascii "trace_id") := by
      simp [Json.path?]
    rw [idOf?, hpath]
    simp only [Option.bind_eq_some_iff, Json.string?_eq_some]
    constructor
    · intro h
      obtain ⟨_, ⟨contexts, hcontexts, trace, htrace, hid⟩, rfl⟩ := h
      exact .trace hcontexts htrace hid
    · intro h
      cases h with
      | trace hcontexts htrace h => exact ⟨_, ⟨_, hcontexts, _, htrace, h⟩, rfl⟩

/-- The hash of an id, if there is one. -/
def hash (id? : Option Bytes) : Nat := id?.elim 0 fun id => (Fnv.hash32 id).toNat

theorem hashOf_hash (event : Json) (subject : Subject) :
    HashOf event subject (hash (idOf? event subject)) := by
  cases h : idOf? event subject with
  | none =>
    refine .none ?_
    intro id hid
    cases h.symm.trans (idOf?_eq_some_iff.mpr hid)
  | some id => exact .id (idOf?_eq_some_iff.mp h)

theorem hash_lt (id? : Option Bytes) : hash id? < 2 ^ 32 := by
  cases id? with
  | none => exact Nat.two_pow_pos 32
  | some id => exact (Fnv.hash32 id).toNat_lt

/-- A position is exact. -/
theorem value_position (id? : Option Bytes) :
    isFinite (position id?) = true ∧ value (position id?) = hash id? / 2 ^ 32 := by
  cases id? with
  | none =>
    refine ⟨Binary64.value_zero.1, Binary64.value_zero.2.trans ?_⟩
    simp [hash]
  | some id =>
    obtain ⟨hfinite, hvalue⟩ := Binary64.value_ofUInt32 (Fnv.hash32 id)
    have hspan : isFinite 4294967296 = true ∧ value 4294967296 = (4294967296 : Nat) :=
      Binary64.value_ofNat (by decide)
    have hquotient : value (Fnv.hash32 id).toFloat / value 4294967296 =
        (Fnv.hash32 id).toNat * 2 ^ (-32 : Int) := by
      rw [hvalue, hspan.2, div_eq_mul_inv, zpow_neg]
      norm_num
    have hnonneg : (0 : ℚ) ≤ (Fnv.hash32 id).toNat * 2 ^ (-32 : Int) := by positivity
    have hsize : |value (Fnv.hash32 id).toFloat / value 4294967296| ≤ 2 ^ 1023 := by
      have hlt : ((Fnv.hash32 id).toNat : ℚ) ≤ 2 ^ 32 := by exact_mod_cast (Fnv.hash32 id).toNat_lt.le
      rw [hquotient, abs_of_nonneg hnonneg]
      calc ((Fnv.hash32 id).toNat : ℚ) * 2 ^ (-32 : Int) ≤ 2 ^ 32 * 2 ^ (-32 : Int) := by gcongr
        _ = 1 := by norm_num
        _ ≤ 2 ^ 1023 := one_le_pow₀ one_le_two
    have hfits := Binary64.nearestMagnitude_of_fits (m := (Fnv.hash32 id).toNat) (e := -32)
      ((Fnv.hash32 id).toNat_lt.trans (by decide)) (by decide)
    have hspan' : value 4294967296 ≠ 0 := by
      rw [hspan.2]
      norm_num
    obtain ⟨hfinite, hvalue⟩ := Binary64.value_div hfinite hspan.1 hspan' hsize
    refine ⟨hfinite, hvalue.trans ?_⟩
    rw [hquotient, Binary64.nearest_of_nonneg hnonneg, hfits, zpow_neg]
    rfl

/-! ## Rates -/

section Rates

variable {raw : Json} {r : Rule} {rate : Float}

theorem readRate_eq_ok_iff : readRate raw = .ok rate ↔
    ∃ x : Number, raw.get? (ascii "sampleRate") = some (.number x) ∧ x.toFloat = rate ∧ ¬rate < 0 ∧
      ¬1 < rate := by
  unfold readRate
  cases h : raw.get? (ascii "sampleRate") with
  | none => simp
  | some v =>
    cases v with
    | number x =>
      simp only [Option.bind_some, Json.float?, Json.number?, Option.map_some]
      split_ifs with hout
      · have hout : x.toFloat < 0 ∨ 1 < x.toFloat := by simpa using hout
        simp only [Option.some.injEq, Json.number.injEq, false_iff]
        intro hx
        obtain ⟨x, rfl, rfl, hlow, hhigh⟩ := hx
        exact hout.elim hlow hhigh
      · have hin : ¬x.toFloat < 0 ∧ ¬1 < x.toFloat := by simpa using hout
        constructor
        · intro hx
          cases hx
          exact ⟨x, rfl, rfl, hin⟩
        · intro hx
          obtain ⟨x, ⟨⟩, rfl, -, -⟩ := hx
          rfl
    | _ => simp [Json.float?, Json.number?]

theorem Rule.read_eq_ok_iff : Rule.read raw = .ok r ↔ raw.object?.isSome ∧ readId raw = r.id ∧
    readRate raw = .ok r.rate ∧ readSubject raw = .ok r.subject ∧ readCondition raw = .ok r.condition := by
  unfold Rule.read
  cases raw.object? with
  | none => exact iff_of_false nofun (by simp)
  | some members =>
    simp only [Option.isNone_some, Bool.false_eq_true, if_false, bind_eq_ok]
    constructor
    · intro h
      obtain ⟨rate, hrate, subject, hsubject, condition, hcondition, h⟩ := h
      cases h
      exact ⟨rfl, rfl, hrate, hsubject, hcondition⟩
    · intro h
      obtain ⟨-, hid, hrate, hsubject, hcondition⟩ := h
      exact ⟨r.rate, hrate, r.subject, hsubject, r.condition, hcondition, by rw [hid]; rfl⟩

/-- A readable rate is compared with a position as its value is. -/
theorem lt_rate_iff (h : readRate raw = .ok rate) (id? : Option Bytes) :
    position id? < rate ↔ (hash id? : ℚ) < value rate * 2 ^ 32 := by
  obtain ⟨x, -, -, hlow, hhigh⟩ := readRate_eq_ok_iff.mp h
  obtain ⟨hfinite, hvalue⟩ := value_position id?
  have hnonneg : 0 ≤ value (position id?) := by
    rw [hvalue]
    positivity
  rw [Binary64.lt_iff_of_between Binary64.value_zero.1 Binary64.value_one.1 hlow hhigh hfinite
    hnonneg, hvalue]
  exact div_lt_iff₀ (by norm_num)

theorem keep_iff (h : Rule.read raw = .ok r) (event : Json) :
    (r.decide event).keep = true ↔ (hash (idOf? event r.subject) : ℚ) < value r.rate * 2 ^ 32 := by
  obtain ⟨-, -, hrate, -⟩ := Rule.read_eq_ok_iff.mp h
  rw [← lt_rate_iff hrate, Rule.decide, decide_eq_true_iff]

theorem value_rate_nonneg (h : readRate raw = .ok rate) : 0 ≤ value rate := by
  obtain ⟨x, -, -, hlow, -⟩ := readRate_eq_ok_iff.mp h
  cases hfinite : isFinite rate with
  | true =>
    rw [Binary64.lt_iff hfinite Binary64.value_zero.1, Binary64.value_zero.2] at hlow
    exact not_lt.mp hlow
  | false => rw [Binary64.value_of_not_isFinite hfinite]

/-- The subject of a rule is the one that it names. -/
theorem readSubject_eq_ok_iff : readSubject raw = .ok subject ↔
    raw.get? (ascii "type") = some (.string (ascii subject.label)) := by
  rw [← Json.text?_eq_some]
  unfold readSubject
  cases raw.text? "type" with
  | none => exact iff_of_false nofun nofun
  | some s =>
    have hlabels : ascii "transaction" ≠ ascii "trace" := by decide
    dsimp only
    split_ifs with htransaction htrace <;> cases subject <;>
      simp_all [Subject.label, eq_comm]

/-- Setting a rate changes nothing but the rate, which is valid if it is larger than a valid one and
at most 1. -/
theorem Rule.read_set {x : Number} (h : Rule.read raw = .ok r) (hfinite : isFinite x.toFloat = true)
    (hlow : value r.rate ≤ value x.toFloat) (hhigh : value x.toFloat ≤ 1) :
    Rule.read (raw.set (ascii "sampleRate") (.number x)) = .ok { r with rate := x.toFloat } := by
  obtain ⟨hobject, hid, hrate, hsubject, hcondition⟩ := Rule.read_eq_ok_iff.mp h
  have hagree := Json.AgreeExcept.set raw (ascii "sampleRate") (.number x)
  have hget : (raw.set (ascii "sampleRate") (.number x)).get? (ascii "sampleRate") = some (.number x) := by
    obtain ⟨members, hmembers⟩ := Option.isSome_iff_exists.mp hobject
    rw [Json.object?_eq_some.mp hmembers]
    exact Ordered.get?_insert_self _ _ _
  refine Rule.read_eq_ok_iff.mpr ⟨?_, ?_, ?_, ?_, ?_⟩
  · rw [hagree.object]
    exact hobject
  · rw [← hid, readId, readId, hagree.get? _ (by decide)]
  · refine readRate_eq_ok_iff.mpr ⟨x, hget, rfl, ?_, ?_⟩
    · rw [Binary64.lt_iff hfinite Binary64.value_zero.1, Binary64.value_zero.2, not_lt]
      exact (value_rate_nonneg hrate).trans hlow
    · rw [Binary64.lt_iff Binary64.value_one.1 hfinite, Binary64.value_one.2, not_lt]
      exact hhigh
  · rw [readSubject_eq_ok_iff] at hsubject ⊢
    rw [hagree.get? _ (by decide)]
    exact hsubject
  · rw [← hcondition, readCondition, readCondition, hagree.get? _ (by decide)]

end Rates

/-! ## Lists of rules -/

section Lists

variable {raw : Json} {raws raws' before after : List Json} {r : Rule}

/-- The first rule of a list that can be read and applies. -/
def first? (event : Json) (raws : List Json) : Option Rule :=
  (raws.filterMap fun raw => (Rule.read raw).toOption).find? fun r => r.condition.holds event

/-- The decision of a rule, if there is one; else an event is kept. -/
def decisionOf (event : Json) (r? : Option Rule) : Decision := r?.elim ⟨true, none⟩ (·.decide event)

theorem decide_read (j event : Json) :
    (read j).decide event = decisionOf event (first? event (Config.items j "rules")) := by
  have hrules : (read j).rules.find? (fun r => r.condition.holds event) =
      first? event (Config.items j "rules") := rfl
  rw [decide, hrules]
  cases first? event (Config.items j "rules") <;> rfl

/-- A value that decides nothing about an event: what cannot be read, or does not apply. -/
def Passes (event raw : Json) : Prop := ∀ r, Rule.read raw = .ok r → r.condition.holds event = false

theorem first?_eq_none (h : ∀ raw ∈ raws, Passes event raw) : first? event raws = none := by
  rw [first?, List.find?_eq_none]
  intro r hr
  obtain ⟨raw, hraw, hread⟩ := List.mem_filterMap.mp hr
  simp [h raw hraw r (toOption_eq_some.mp hread)]

theorem first?_append (before after : List Json) :
    first? event (before ++ after) = (first? event before).or (first? event after) := by
  rw [first?, List.filterMap_append, List.find?_append]
  rfl

theorem first?_cons (h : Rule.read raw = .ok r) (after : List Json) : first? event (raw :: after) =
    if r.condition.holds event then some r else first? event after := by
  rw [first?, List.filterMap_cons, toOption_eq_some.mpr h, List.find?_cons]
  cases r.condition.holds event <;> rfl

/-- Whether a value can be read as a rule. -/
def readable (raw : Json) : Bool := (Rule.read raw).toOption.isSome

theorem filterMap_filter_readable (raws : List Json) :
    ((raws.filter readable).filterMap fun raw => (Rule.read raw).toOption) =
      raws.filterMap fun raw => (Rule.read raw).toOption := by
  rw [List.filterMap_filter]
  refine List.filterMap_congr ?_
  intro raw _
  unfold readable
  cases (Rule.read raw).toOption <;> rfl

/-- The second list has a larger rate in one place, a valid one, and is else the first. -/
inductive RateRaised : List Json → List Json → Prop
  | intro {raw : Json} {r : Rule} {x : Number} (before after : List Json) (h : Rule.read raw = .ok r)
      (hfinite : isFinite x.toFloat = true) (hlow : value r.rate ≤ value x.toFloat)
      (hhigh : value x.toFloat ≤ 1) :
      RateRaised (before ++ raw :: after) (before ++ raw.set (ascii "sampleRate") (.number x) :: after)

theorem keep_of_rateRaised (h : RateRaised raws raws')
    (hkeep : (decisionOf event (first? event raws)).keep = true) :
    (decisionOf event (first? event raws')).keep = true := by
  cases h with
  | @intro raw r x before after hread hfinite hlow hhigh =>
    have hread' := Rule.read_set hread hfinite hlow hhigh
    rw [first?_append, first?_cons hread] at hkeep
    rw [first?_append, first?_cons hread']
    cases hbefore : first? event before with
    | some earlier =>
      rw [hbefore] at hkeep
      exact hkeep
    | none =>
      rw [hbefore, Option.none_or] at hkeep
      rw [Option.none_or]
      dsimp only
      split_ifs at hkeep ⊢ with happlies
      · have hlt := (keep_iff hread event).mp hkeep
        exact (keep_iff hread' event).mpr (hlt.trans_le (by gcongr))
      · exact hkeep

end Lists

/-- **Sampling is decided by the first readable rule that applies, consistently and monotonically.**
Reading and deciding raise nothing.  Values that cannot be read as rules decide nothing, so lists with the
same readable rules decide alike; the first readable rule that applies decides, whatever stands after it; and
without one an event is kept, by no rule.  A rule keeps the events whose hash, or 0 without an id, is below
its rate times `2 ^ 32`: at rate 1 all, at rate 0 none.  A larger rate in one place keeps what was kept. -/
theorem decide_first_rule (j event : Json) :
    Raising.sampling j = .ok (read j) ∧
    Raising.sample event (read j).rules = .ok ((read j).decide event) ∧
    (∀ j', (Config.items j' "rules").filter readable = (Config.items j "rules").filter readable →
      (read j').decide event = (read j).decide event) ∧
    (∀ before raw after r, Config.items j "rules" = before ++ raw :: after →
      (∀ earlier ∈ before, Passes event earlier) → Rule.read raw = .ok r → r.condition.holds event = true →
      (read j).decide event = r.decide event) ∧
    ((∀ raw ∈ Config.items j "rules", Passes event raw) → (read j).decide event = ⟨true, none⟩) ∧
    (∀ raw r, Rule.read raw = .ok r → ∃ (x : Number) (n : Nat),
      raw.get? (ascii "sampleRate") = some (.number x) ∧
      raw.get? (ascii "type") = some (.string (ascii r.subject.label)) ∧ HashOf event r.subject n ∧
      (r.decide event).rule = some r.id ∧
      ((r.decide event).keep = true ↔ (n : ℚ) < value x.toFloat * 2 ^ 32) ∧
      (value x.toFloat = 1 → (r.decide event).keep = true) ∧
      (value x.toFloat = 0 → (r.decide event).keep = false)) ∧
    ∀ j', RateRaised (Config.items j "rules") (Config.items j' "rules") →
      ((read j).decide event).keep = true → ((read j').decide event).keep = true := by
  refine ⟨Raising.sampling_eq j, Raising.sample_eq event (read j), ?_, ?_, ?_, ?_, ?_⟩
  · intro j' hsame
    rw [decide_read, decide_read, first?, first?, ← filterMap_filter_readable, hsame,
      filterMap_filter_readable]
  · intro before raw after r hrules hbefore hread happlies
    rw [decide_read, hrules, first?_append, first?_eq_none hbefore, first?_cons hread, if_pos happlies]
    rfl
  · intro hnone
    rw [decide_read, first?_eq_none hnone]
    rfl
  · intro raw r hread
    obtain ⟨-, -, hrate, hsubject, -⟩ := Rule.read_eq_ok_iff.mp hread
    obtain ⟨x, hx, hvalue, -, -⟩ := readRate_eq_ok_iff.mp hrate
    have hkeep := keep_iff hread event
    have hlt : (hash (idOf? event r.subject) : ℚ) < 2 ^ 32 := by exact_mod_cast hash_lt _
    rw [← hvalue] at hkeep
    refine ⟨x, _, hx, readSubject_eq_ok_iff.mp hsubject, hashOf_hash event r.subject, rfl, hkeep, ?_, ?_⟩
    · intro hone
      rw [hkeep, hone, one_mul]
      exact hlt
    · intro hzero
      rw [← Bool.not_eq_true, hkeep, hzero, zero_mul, not_lt]
      exact Nat.cast_nonneg _
  · intro j' hraised hkeep
    rw [decide_read] at hkeep ⊢
    exact keep_of_rateRaised hraised hkeep

/-- A value that is no rule, and a rule for all events at a rate of 1. -/
theorem decide_first_rule_all :
    let rule := Json.object [
      (ascii "condition", .object [(ascii "inner", .array []), (ascii "op", .string (ascii "and"))]),
      (ascii "id", .number (.unsigned 7)), (ascii "sampleRate", .number (.unsigned 1)),
      (ascii "type", .string (ascii "trace"))]
    ∀ event, (read (.object [(ascii "rules", .array [.null, rule])])).decide event = ⟨true, some 7⟩ := by
  intro rule event
  have hcondition : Condition.read
      (.object [(ascii "inner", .array []), (ascii "op", .string (ascii "and"))]) =
      .ok (.all []) := Condition.read_combined rfl (.inl rfl)
  have hread : Rule.read rule = .ok ⟨7, .trace, Binary64.ofWord 1, .all []⟩ := by
    refine Rule.read_eq_ok_iff.mpr ⟨rfl, rfl, ?_, rfl, ?_⟩
    · exact readRate_eq_ok_iff.mpr ⟨.unsigned 1, rfl, rfl, by decide +kernel, by decide +kernel⟩
    · exact (congrArg (Except.mapError Fault.condition) hcondition).trans rfl
  have hnull : ∀ earlier ∈ [Json.null], Passes event earlier := by
    intro earlier hearlier
    rw [List.mem_singleton.mp hearlier]
    exact nofun
  obtain ⟨-, -, -, hfirst, -, hrule, -⟩ :=
    decide_first_rule (.object [(ascii "rules", .array [.null, rule])]) event
  rw [hfirst [.null] rule [] _ rfl hnull hread rfl]
  obtain ⟨x, n, hx, -, -, -, -, hone, -⟩ := hrule rule _ hread
  cases hx
  exact congrArg (Decision.mk · (some 7))
    (hone ((Binary64.value_normalize (n := 1) (by decide)).2.trans Nat.cast_one))

end Telemetry.Sampling

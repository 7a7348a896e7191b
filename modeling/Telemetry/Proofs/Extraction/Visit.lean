import Telemetry.Proofs.Extraction.NormalForm

/-!
# Extraction at one relay

Whether the payload of an item is valid for extraction is a property of the payload (`valid`):
neither the configuration of a relay nor the client library it knows has a part in it, and
normalising does not change it.  A relay extracts from a valid item without the flag if it may, and
otherwise passes the item on as it came.
-/

namespace Telemetry

namespace Extraction

/-! ## Validity -/

/-- A payload says enough to extract from it. -/
def valid : ItemKind → Json → Bool
  | .session, value =>
    (Session.nonEmpty ((Session.attributes value).text? "release")).isSome &&
      (Event.timeAt? value "started").isSome
  | .transaction, value =>
    value.object?.isSome &&
      (value.text? "type").getD (ascii "transaction") == ascii "transaction" &&
        (Event.timeAt? value "timestamp").isSome
  | .metrics, _ | .buckets, _ => false

theorem isSome_session_points? (session : Json) (sdk : Option Bytes) :
    (Session.points? session sdk).isSome = valid .session session := by
  rw [Session.points?, valid]
  cases Session.nonEmpty ((Session.attributes session).text? "release") with
  | none => rfl
  | some release =>
    cases Event.timeAt? session "started" with
    | none => rfl
    | some started => rfl

theorem isSome_transaction_points? (config : Config) (event : Json) :
    (Transaction.points? config event).isSome = valid .transaction event := by
  rw [Transaction.points?, valid]
  cases event.object? with
  | none => rfl
  | some members =>
    by_cases htype : (event.text? "type").getD (ascii "transaction") = ascii "transaction"
    · cases Event.timeAt? event "timestamp" with
      | none => simp [htype]
      | some stop => simp [htype]
    · simp [htype]

/-- Normalising keeps what validity reads. -/
theorem valid_normalize (config : Config) (event : Json) :
    valid .transaction (Transaction.normalize config event) = valid .transaction event := by
  have htype := Transaction.normalize_get? config event (ascii "type") (by decide) (by decide)
  have htime := Transaction.normalize_get? config event (ascii "timestamp") (by decide) (by decide)
  rw [valid, valid, Transaction.normalize_object?, Json.text?, Json.text?, Event.timeAt?,
    Event.timeAt?, htype, htime]

/-! ## One relay -/

/-- The relay extracts from the item. -/
def Hop.extracts (hop : Hop) (item : Item) (value : Json) : Bool :=
  !item.extracted && enabled hop.config item.kind && valid item.kind value

/-- What the relay answers if it does not. -/
def Hop.refusal (hop : Hop) (item : Item) : Decision :=
  if item.extracted then .alreadyExtracted
  else if enabled hop.config item.kind then .invalid
  else .disabled

namespace Hop

theorem refusal_ne (hop : Hop) (item : Item) : hop.refusal item ≠ .extracted := by
  rw [refusal]
  split
  · decide
  · split <;> decide

variable (hop : Hop) {item : Item} {value : Json}

theorem visit_of_precheck? {decision : Decision} (hvalue : Json.parse? item.payload = some value)
    (h : precheck? hop.config item = some decision) : hop.visit item = .ok (.skip decision item) := by
  have hsession : session hop.sdk hop.config item value = .skip decision item := by
    rw [session, h]
  rw [visit, hvalue]
  dsimp only
  split
  · rw [transaction, h]
    rfl
  · rw [hsession]
  · rw [hsession]
  · rw [hsession]

/-- A relay that does not extract passes the item on as it came. -/
theorem visit_refused (hvalue : Json.parse? item.payload = some value)
    (h : hop.extracts item value = false) :
    hop.visit item = .ok (.skip (hop.refusal item) item) := by
  rw [refusal]
  split
  · next hflag => exact hop.visit_of_precheck? hvalue (by rw [precheck?, if_pos hflag])
  · next hflag =>
    split
    · next henabled =>
      have hinvalid : valid item.kind value = false := by
        simpa [extracts, hflag, henabled] using h
      have hcheck : precheck? hop.config item = none := by
        rw [precheck?, if_neg hflag, if_pos henabled]
      rw [visit, hvalue]
      dsimp only
      cases hkind : item.kind with
      | session =>
        rw [hkind, ← isSome_session_points? value hop.sdk, Option.isSome_eq_false_iff,
          Option.isNone_iff_eq_none] at hinvalid
        dsimp only
        rw [session, hcheck, hinvalid]
      | transaction =>
        rw [hkind, ← valid_normalize hop.config, ← isSome_transaction_points? hop.config,
          Option.isSome_eq_false_iff, Option.isNone_iff_eq_none] at hinvalid
        dsimp only
        rw [transaction, hcheck]
        dsimp only
        rw [hinvalid]
        rfl
      | metrics =>
        rw [hkind] at henabled
        cases henabled
      | buckets =>
        rw [hkind] at henabled
        cases henabled
    · next hdisabled =>
      exact hop.visit_of_precheck? hvalue (by rw [precheck?, if_neg hflag, if_neg hdisabled])

/-- A relay that extracts sets the flag and passes on a payload that can be read again. -/
theorem visit_extracts (hconfig : hop.config.Parsed)
    (hvalue : Json.parse? item.payload = some value) (h : hop.extracts item value = true) :
    ∃ r, hop.visit item = .ok r ∧ r.decision = .extracted ∧ r.item.extracted = true ∧
      (Json.parse? r.item.payload).isSome := by
  obtain ⟨⟨hflag, henabled⟩, hvalid⟩ : (item.extracted = false ∧
      enabled hop.config item.kind = true) ∧ valid item.kind value = true := by
    simpa [extracts] using h
  have hcheck : precheck? hop.config item = none := by
    rw [precheck?, if_neg (by simp [hflag]), if_pos henabled]
  rw [visit, hvalue]
  dsimp only
  cases hkind : item.kind with
  | session =>
    rw [hkind, ← isSome_session_points? value hop.sdk] at hvalid
    obtain ⟨points, hpoints⟩ := Option.isSome_iff_exists.mp hvalid
    dsimp only
    rw [session, hcheck, hpoints]
    exact ⟨_, rfl, rfl, rfl, Option.isSome_iff_exists.mpr ⟨value, hvalue⟩⟩
  | transaction =>
    rw [hkind, ← valid_normalize hop.config, ← isSome_transaction_points? hop.config] at hvalid
    obtain ⟨points, hpoints⟩ := Option.isSome_iff_exists.mp hvalid
    have hnormal := Transaction.normalize_encodable hconfig.encodable (Json.parse?_encodable hvalue)
    dsimp only
    rw [transaction, hcheck]
    dsimp only
    rw [hpoints, Json.dump?_of_encodable hnormal]
    exact ⟨_, rfl, rfl, rfl, Option.isSome_iff_exists.mpr ⟨_, Json.parse?_render hnormal⟩⟩
  | metrics =>
    rw [hkind] at henabled
    cases henabled
  | buckets =>
    rw [hkind] at henabled
    cases henabled

/-- A relay that may extract from an item without the flag does so if the payload is valid. -/
theorem visit_decision (hconfig : hop.config.Parsed)
    (hvalue : Json.parse? item.payload = some value) (hflag : item.extracted = false)
    (henabled : enabled hop.config item.kind = true) :
    ∃ r, hop.visit item = .ok r ∧
      r.decision = if valid item.kind value then .extracted else .invalid := by
  cases hvalid : valid item.kind value with
  | false =>
    refine ⟨_, hop.visit_refused hvalue (by simp [extracts, hvalid]), ?_⟩
    simp [Result.skip, refusal, hflag, henabled]
  | true =>
    obtain ⟨r, hvisit, hdecision, -⟩ :=
      hop.visit_extracts hconfig hvalue (by simp [extracts, hflag, henabled, hvalid])
    exact ⟨r, hvisit, hdecision⟩

end Hop

end Extraction

end Telemetry

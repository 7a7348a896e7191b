import Telemetry.Proofs.Extraction.Visit

/-!
# Extraction along a chain

What every relay of a chain answers follows from the place of the first one that extracts
(`chain_passage`): those before it refuse the item and pass it on as it came, those after it find
the flag.  The induction is over the chain; once the flag is set the rest of the chain is the same
whatever its configurations.
-/

namespace Telemetry

namespace Extraction

/-! ## A chain of relays -/

/-- The place of the relay that extracts. -/
def extractor? (hops : List Hop) (item : Item) (value : Json) : Option Nat :=
  hops.findIdx? fun hop => hop.extracts item value

/-- What the relays of a chain answer, place by place. -/
structure Passage (hops : List Hop) (item : Item) (value : Json) (results : List Result) :
    Prop where
  length : results.length = hops.length
  refused : ∀ i hop r, hops[i]? = some hop → results[i]? = some r →
    (∀ k, extractor? hops item value = some k → i < k) → r = .skip (hop.refusal item) item
  extracting : ∀ i hop r, hops[i]? = some hop → results[i]? = some r →
    extractor? hops item value = some i →
      hop.visit item = .ok r ∧ r.decision = .extracted ∧ r.item.extracted = true
  after : ∀ i k e r, extractor? hops item value = some k → k < i →
    results[k]? = some e → results[i]? = some r → r = .skip .alreadyExtracted e.item

/-- An item with the flag passes every relay as it is. -/
theorem chain_of_flag {item : Item} (hflag : item.extracted = true)
    (hvalue : (Json.parse? item.payload).isSome) (hops : List Hop) :
    chain hops item = .ok (hops.map fun _ => .skip .alreadyExtracted item) := by
  obtain ⟨value, hvalue⟩ := Option.isSome_iff_exists.mp hvalue
  induction hops with
  | nil => rfl
  | cons hop rest ih =>
    have hvisit : hop.visit item = .ok (.skip .alreadyExtracted item) :=
      hop.visit_of_precheck? hvalue (by rw [precheck?, if_pos hflag])
    rw [chain, hvisit]
    change (chain rest item >>= fun more => pure (Result.skip .alreadyExtracted item :: more)) = _
    rw [ih]
    rfl

namespace Passage

variable {hop : Hop} {hops : List Hop} {item : Item} {value : Json} {results : List Result}

theorem nil (item : Item) (value : Json) : Passage [] item value [] := by
  constructor <;> intros <;> simp_all

/-- A relay that refuses the item is put before a chain. -/
theorem cons_refused (h : Passage hops item value results)
    (hrefused : hop.extracts item value = false) :
    Passage (hop :: hops) item value (.skip (hop.refusal item) item :: results) := by
  have hshift : extractor? (hop :: hops) item value =
      (extractor? hops item value).map (· + 1) := by
    rw [extractor?, List.findIdx?_cons, hrefused]
    rfl
  refine ⟨by simp [h.length], ?_, ?_, ?_⟩
  · rintro (_ | i) hop' r hhop hr hbefore
    · cases hhop
      cases hr
      rfl
    · refine h.refused i hop' r hhop hr fun k hk => ?_
      have := hbefore (k + 1) (by rw [hshift, hk]; rfl)
      omega
  · intro i hop' r hhop hr hk
    rw [hshift] at hk
    obtain ⟨k, hplace, rfl⟩ := Option.map_eq_some_iff.mp hk
    exact h.extracting k hop' r hhop hr hplace
  · intro i k e r hk hlt he hr
    rw [hshift] at hk
    obtain ⟨k, hplace, rfl⟩ := Option.map_eq_some_iff.mp hk
    obtain _ | i := i
    · omega
    · exact h.after i k e r hplace (by omega) he hr

/-- A relay that extracts settles what all relays after it answer. -/
theorem cons_extracted {r : Result} (hextracts : hop.extracts item value = true)
    (hvisit : hop.visit item = .ok r) (hdecision : r.decision = .extracted)
    (hflag : r.item.extracted = true) :
    Passage (hop :: hops) item value (r :: hops.map fun _ => .skip .alreadyExtracted r.item) := by
  have hfirst : extractor? (hop :: hops) item value = some 0 := by
    rw [extractor?, List.findIdx?_cons, hextracts]
    rfl
  refine ⟨by simp, ?_, ?_, ?_⟩
  · -- no place is before the first
    intro i hop' r' hhop hr hbefore
    exact absurd (hbefore 0 hfirst) (Nat.not_lt_zero i)
  · intro i hop' r' hhop hr hk
    rw [hfirst] at hk
    cases hk
    cases hhop
    cases hr
    exact ⟨hvisit, hdecision, hflag⟩
  · intro i k e r' hk hlt he hr
    rw [hfirst] at hk
    cases hk
    cases he
    obtain _ | i := i
    · omega
    · rw [List.getElem?_cons_succ, List.getElem?_map] at hr
      obtain ⟨hop', -, hr⟩ := Option.map_eq_some_iff.mp hr
      exact hr.symm

end Passage

theorem chain_passage {hops : List Hop} (hconfigs : ∀ hop ∈ hops, hop.config.Parsed) {item : Item}
    {value : Json} (hvalue : Json.parse? item.payload = some value) :
    ∃ results, chain hops item = .ok results ∧ Passage hops item value results := by
  induction hops with
  | nil => exact ⟨[], rfl, .nil item value⟩
  | cons hop rest ih =>
    obtain ⟨hconfig, hconfigs⟩ := List.forall_mem_cons.mp hconfigs
    cases hextracts : hop.extracts item value with
    | false =>
      obtain ⟨results, hresults, hpassage⟩ := ih hconfigs
      refine ⟨_, ?_, hpassage.cons_refused hextracts⟩
      rw [chain, hop.visit_refused hvalue hextracts]
      change (chain rest item >>= fun more => pure (Result.skip (hop.refusal item) item :: more)) = _
      rw [hresults]
      rfl
    | true =>
      obtain ⟨r, hvisit, hdecision, hflag, hread⟩ := hop.visit_extracts hconfig hvalue hextracts
      refine ⟨_, ?_, Passage.cons_extracted hextracts hvisit hdecision hflag⟩
      -- what the rest of the chain says of the item as it came does not matter any more
      rw [chain, hvisit]
      change (chain rest r.item >>= fun more => pure (r :: more)) = _
      rw [chain_of_flag hflag hread]
      rfl

/-! ## Exactly once -/

/-- What a chain promises about an item whose payload has a value. -/
structure ExtractsOnce (hops : List Hop) (item : Item) (value : Json) (results : List Result) :
    Prop where
  /-- Every relay decides. -/
  length : results.length = hops.length
  /-- Whether the payload is valid shows alike at every relay that may extract. -/
  validity : ∀ hop : Hop, hop.config.Parsed → enabled hop.config item.kind = true →
    ∃ r, hop.visit { item with extracted := false } = .ok r ∧
      r.decision = if valid item.kind value then .extracted else .invalid
  /-- Two relays never extract. -/
  unique : ∀ (i j : Nat) (a b : Result), results[i]? = some a → results[j]? = some b →
    a.decision = .extracted → b.decision = .extracted → i = j
  /-- From a valid item without the flag the first relay extracts that may. -/
  first : item.extracted = false → valid item.kind value = true →
    ∀ (i : Nat) (r : Result), results[i]? = some r →
      (r.decision = .extracted ↔
        (hops.findIdx? fun hop => enabled hop.config item.kind) = some i)
  /-- That relay sees the item as it came to the chain, and sets the flag. -/
  extracting : ∀ (i : Nat) (hop : Hop) (r : Result), hops[i]? = some hop → results[i]? = some r →
    r.decision = .extracted → hop.visit item = .ok r ∧ r.item.extracted = true
  /-- Nobody extracts from an item that is not valid. -/
  invalid : valid item.kind value = false → ∀ r ∈ results, r.decision ≠ .extracted
  /-- Nobody extracts from an item that came with the flag. -/
  flagged : item.extracted = true → ∀ r ∈ results, r = .skip .alreadyExtracted item
  /-- As long as nobody has extracted, the item goes on as it came. -/
  before : item.extracted = false → ∀ (i : Nat) (r : Result), results[i]? = some r →
    (∀ (k : Nat) (e : Result), k ≤ i → results[k]? = some e → e.decision ≠ .extracted) →
      r = .skip .disabled item ∨ r = .skip .invalid item
  /-- After the relay that extracts, the item goes on as that relay left it. -/
  after : ∀ (k i : Nat) (e r : Result), k < i → results[k]? = some e → results[i]? = some r →
    e.decision = .extracted → r = .skip .alreadyExtracted e.item
  /-- The flag stays set. -/
  flag : ∀ (i j : Nat) (a b : Result), i ≤ j → results[i]? = some a → results[j]? = some b →
    a.item.extracted = true → b.item.extracted = true

namespace Passage

variable {hops : List Hop} {item : Item} {value : Json} {results : List Result}

theorem hop_at (h : Passage hops item value results) {i : Nat} {r : Result}
    (hr : results[i]? = some r) : ∃ hop, hops[i]? = some hop := by
  obtain ⟨hlt, -⟩ := List.getElem?_eq_some_iff.mp hr
  rw [h.length] at hlt
  exact ⟨_, List.getElem?_eq_getElem hlt⟩

/-- What a relay answers depends on whether it stands before, at or after the extractor. -/
theorem answer_cases (h : Passage hops item value results) {i : Nat} {r : Result}
    (hr : results[i]? = some r) :
    ((∀ k, extractor? hops item value = some k → i < k) ∧
        ∃ hop : Hop, r = .skip (hop.refusal item) item) ∨
      (extractor? hops item value = some i ∧ r.decision = .extracted ∧ r.item.extracted = true) ∨
      ∃ (k : Nat) (e : Result), extractor? hops item value = some k ∧ k < i ∧
        e.item.extracted = true ∧ r = .skip .alreadyExtracted e.item := by
  obtain ⟨hop, hhop⟩ := h.hop_at hr
  by_cases hbefore : ∀ k, extractor? hops item value = some k → i < k
  · exact Or.inl ⟨hbefore, hop, h.refused i hop r hhop hr hbefore⟩
  push Not at hbefore
  obtain ⟨k, hk, hle⟩ := hbefore
  obtain rfl | hlt := Nat.eq_or_lt_of_le hle
  · exact Or.inr (Or.inl ⟨hk, (h.extracting k hop r hhop hr hk).2⟩)
  · obtain ⟨hlast, -⟩ := List.getElem?_eq_some_iff.mp hr
    have he : results[k]? = some results[k] := List.getElem?_eq_getElem (hlt.trans hlast)
    obtain ⟨first, hfirst⟩ := h.hop_at he
    have hflag := (h.extracting k first _ hfirst he hk).2.2
    exact Or.inr (Or.inr ⟨k, _, hk, hlt, hflag, h.after i k _ r hk hlt he hr⟩)

/-- The relay at the place of the extractor is the one that answers so. -/
theorem decision_iff (h : Passage hops item value results) {i : Nat} {r : Result}
    (hr : results[i]? = some r) :
    r.decision = .extracted ↔ extractor? hops item value = some i := by
  rcases h.answer_cases hr with
    ⟨hbefore, hop, rfl⟩ | ⟨hplace, hdecision, -⟩ | ⟨k, e, hk, hlt, -, rfl⟩
  · constructor
    · intro hdecision
      exact absurd hdecision (hop.refusal_ne item)
    · intro hplace
      exact absurd (hbefore i hplace) (Nat.lt_irrefl i)
  · exact iff_of_true hdecision hplace
  · constructor
    · intro hdecision
      cases hdecision
    · intro hplace
      have := Option.some.inj (hk.symm.trans hplace)
      omega

/-- The flag is set from the extractor on. -/
theorem flag_iff (h : Passage hops item value results) {i : Nat} {r : Result}
    (hr : results[i]? = some r) :
    r.item.extracted = true ↔
      item.extracted = true ∨ ∃ k ≤ i, extractor? hops item value = some k := by
  rcases h.answer_cases hr with
    ⟨hbefore, hop, rfl⟩ | ⟨hplace, -, hflag⟩ | ⟨k, e, hk, hlt, hflag, rfl⟩
  · constructor
    · exact Or.inl
    · rintro (hflag | ⟨k, hle, hk⟩)
      · exact hflag
      · exact absurd (hbefore k hk) (Nat.not_lt.mpr hle)
  · exact iff_of_true hflag (Or.inr ⟨i, Nat.le_refl i, hplace⟩)
  · exact iff_of_true hflag (Or.inr ⟨k, hlt.le, hk⟩)

/-- Before the place of the extractor the item goes on as it came. -/
theorem before (h : Passage hops item value results) {i : Nat} {r : Result}
    (hr : results[i]? = some r)
    (hnone : ∀ (k : Nat) (e : Result), k ≤ i → results[k]? = some e → e.decision ≠ .extracted) :
    ∃ hop : Hop, r = .skip (hop.refusal item) item := by
  obtain ⟨hlast, -⟩ := List.getElem?_eq_some_iff.mp hr
  have hplace : ∀ k ≤ i, extractor? hops item value ≠ some k := by
    intro k hle hk
    have he : results[k]? = some results[k] := List.getElem?_eq_getElem (by omega)
    exact hnone k _ hle he ((h.decision_iff he).mpr hk)
  rcases h.answer_cases hr with ⟨-, hrefused⟩ | ⟨hi, -⟩ | ⟨k, e, hk, hlt, -⟩
  · exact hrefused
  · exact absurd hi (hplace i (Nat.le_refl i))
  · exact absurd hk (hplace k hlt.le)

end Passage

theorem extractor?_of_flag {item : Item} (h : item.extracted = true) (hops : List Hop)
    (value : Json) : extractor? hops item value = none := by
  rw [extractor?, List.findIdx?_eq_none_iff]
  intro hop _
  simp [Hop.extracts, h]

theorem extractor?_of_not_valid {item : Item} {value : Json} (h : valid item.kind value = false)
    (hops : List Hop) : extractor? hops item value = none := by
  rw [extractor?, List.findIdx?_eq_none_iff]
  intro hop _
  simp [Hop.extracts, h]

theorem extractor?_of_valid {item : Item} {value : Json} (hflag : item.extracted = false)
    (hvalid : valid item.kind value = true) (hops : List Hop) :
    extractor? hops item value = hops.findIdx? fun hop => enabled hop.config item.kind := by
  have hextracts : (fun hop : Hop => hop.extracts item value) =
      fun hop => enabled hop.config item.kind := by
    funext hop
    simp [Hop.extracts, hflag, hvalid]
  rw [extractor?, hextracts]

theorem Passage.extractsOnce {hops : List Hop} {item : Item} {value : Json} {results : List Result}
    (hvalue : Json.parse? item.payload = some value) (h : Passage hops item value results) :
    ExtractsOnce hops item value results where
  length := h.length
  validity := by
    intro hop hconfig henabled
    exact @Hop.visit_decision hop { item with extracted := false } value hconfig hvalue rfl henabled
  unique := by
    intro i j a b ha hb hextracted hextracted'
    have hi := (h.decision_iff ha).mp hextracted
    have hj := (h.decision_iff hb).mp hextracted'
    exact Option.some.inj (hi.symm.trans hj)
  first := by
    intro hflag hvalid i r hr
    rw [h.decision_iff hr, extractor?_of_valid hflag hvalid]
  extracting := by
    intro i hop r hhop hr hextracted
    obtain ⟨hvisit, -, hflag⟩ := h.extracting i hop r hhop hr ((h.decision_iff hr).mp hextracted)
    exact ⟨hvisit, hflag⟩
  invalid := by
    intro hvalid r hr hextracted
    obtain ⟨i, hi⟩ := List.mem_iff_getElem?.mp hr
    have hplace := (h.decision_iff hi).mp hextracted
    rw [extractor?_of_not_valid hvalid] at hplace
    cases hplace
  flagged := by
    intro hflag r hr
    obtain ⟨i, hi⟩ := List.mem_iff_getElem?.mp hr
    have hnone := extractor?_of_flag hflag hops value
    obtain ⟨hop, hr⟩ := h.before hi fun k e _ he hextracted => by
      rw [h.decision_iff he, hnone] at hextracted
      cases hextracted
    rw [hr, Hop.refusal, if_pos hflag]
  before := by
    intro hflag i r hr hnone
    obtain ⟨hop, rfl⟩ := h.before hr hnone
    rw [Hop.refusal, if_neg (by simp [hflag])]
    split
    · exact Or.inr rfl
    · exact Or.inl rfl
  after := by
    intro k i e r hlt he hr hextracted
    exact h.after i k e r ((h.decision_iff he).mp hextracted) hlt he hr
  flag := by
    intro i j a b hle ha hb hflag
    rw [h.flag_iff hb]
    rcases (h.flag_iff ha).mp hflag with hcame | ⟨k, hk, hplace⟩
    · exact Or.inl hcame
    · exact Or.inr ⟨k, hk.trans hle, hplace⟩

/-- **Along a chain of relays metrics are extracted at most once**, by the first relay that may,
and the item changes there only. -/
theorem chain_extracts_once {hops : List Hop} (hconfigs : ∀ hop ∈ hops, hop.config.Parsed)
    {item : Item} {value : Json} (hvalue : Json.parse? item.payload = some value) :
    ∃ results, chain hops item = .ok results ∧ ExtractsOnce hops item value results := by
  obtain ⟨results, hresults, hpassage⟩ := chain_passage hconfigs hvalue
  exact ⟨results, hresults, hpassage.extractsOnce hvalue⟩

/-- A transaction that passes a relay without extraction and two that may extract. -/
theorem chain_extracts_once_three_relays :
    let off : Hop := ⟨{}, none⟩
    let on : Hop := ⟨{ transactionVersion := some 1 }, none⟩
    let event : Json := .object [(ascii "timestamp", .number (.unsigned 1))]
    let item : Item := ⟨.transaction, event.render, false⟩
    (∀ hop ∈ [off, on, on], hop.config.Parsed) ∧ Json.parse? item.payload = some event ∧
      ∃ results, chain [off, on, on] item = .ok results ∧
        ExtractsOnce [off, on, on] item event results := by
  intro off on event item
  have hoff : off.config.Parsed := Config.parsed_of_read (j := .object []) rfl rfl
  have hon : on.config.Parsed := by
    refine Config.parsed_of_read (j := .object [(ascii "transactionMetrics",
      .object [(ascii "version", .number (.unsigned 1))])]) (by decide) rfl
  have hconfigs : ∀ hop ∈ [off, on, on], hop.config.Parsed := by
    simp [hoff, hon]
  have hvalue : Json.parse? item.payload = some event := by
    rw [Json.parse?_render (by decide)]
    rfl
  exact ⟨hconfigs, hvalue, chain_extracts_once hconfigs hvalue⟩

end Extraction

end Telemetry

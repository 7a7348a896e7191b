import Telemetry.Extraction
import Telemetry.Proofs.Fallible
import Telemetry.Proofs.Json.Encodable
import Telemetry.Proofs.Json.RoundTrip

/-!
# Normal forms of transactions

Normalising touches the measurements and the breakdowns of an event and nothing else
(`normalize_get?`), and an event that has a text keeps one (`normalize_encodable`) where the
configuration was read from JSON itself.
-/

namespace Telemetry

/-! ## Configurations as they are read -/

/-- The configuration is the one of some JSON text. -/
def Config.Parsed (c : Config) : Prop :=
  ∃ text j, Json.parse? text = some j ∧ Config.read j = .ok c

/-- A value with a text stands for that text. -/
theorem Config.parsed_of_read {j : Json} {c : Config} (hj : j.encodable = true)
    (h : Config.read j.readBack = .ok c) : c.Parsed :=
  ⟨j.render, _, Json.parse?_render hj, h⟩

/-- What a breakdown writes to events is UTF-8. -/
structure Breakdown.Encodable (b : Breakdown) : Prop where
  name : Utf8.valid b.name = true
  starts : ∀ s ∈ b.starts, Utf8.valid s = true

theorem readBreakdown_encodable {name : Bytes} {j : Json} {b : Breakdown}
    (hname : Utf8.valid name = true) (hj : j.encodable = true)
    (h : Config.readBreakdown name j = .ok (some b)) : b.Encodable := by
  cases j with
  | object members =>
    obtain ⟨kind, -, h⟩ := bind_eq_ok.mp h
    split at h
    · cases h
      refine ⟨hname, fun s hs => ?_⟩
      obtain ⟨item, hitem, hs⟩ := List.mem_filterMap.mp hs
      exact Json.valid_of_string? (Json.encodable_of_mem_items hj hitem) hs
    · cases h
  | _ => cases h

/-- What a configuration writes to events is UTF-8. -/
def Config.Encodable (c : Config) : Prop := ∀ b ∈ c.breakdowns, b.Encodable

/-- What is read from UTF-8 writes UTF-8. -/
theorem Config.read_encodable {j : Json} {c : Config} (hencodable : j.encodable = true)
    (h : Config.read j = .ok c) : c.Encodable := by
  obtain ⟨measurements, -, h⟩ := bind_eq_ok.mp h
  obtain ⟨breakdowns, hbreakdowns, h⟩ := bind_eq_ok.mp h
  cases h
  intro b hb
  rw [Config.readBreakdowns] at hbreakdowns
  split at hbreakdowns
  · next members hmembers =>
    have hmembers := Json.encodable_object.mp (Json.encodable_of_get? hencodable hmembers)
    obtain ⟨entries, hentries, hbreakdowns⟩ := bind_eq_ok.mp hbreakdowns
    cases hbreakdowns
    obtain ⟨entry, hentry, hsome⟩ := List.mem_filterMap.mp hb
    obtain ⟨⟨name, j⟩, hm, hentry⟩ := mem_of_mapM_eq_ok hentries entry hentry
    rw [id_eq] at hsome
    rw [hsome] at hentry
    exact readBreakdown_encodable (hmembers _ hm).1 (hmembers _ hm).2 hentry
  · cases hbreakdowns
    cases hb

theorem Config.Parsed.encodable {c : Config} (h : c.Parsed) : c.Encodable := by
  obtain ⟨text, j, hj, hread⟩ := h
  exact read_encodable (Json.parse?_encodable hj) hread

/-! ## Events under changes of one member -/

/-- The two values are of one kind and agree on every member but one. -/
structure Json.AgreeExcept (name : Bytes) (a b : Json) : Prop where
  object : a.object?.isSome = b.object?.isSome
  get? : ∀ other, other ≠ name → a.get? other = b.get? other

namespace Json.AgreeExcept

theorem refl (name : Bytes) (j : Json) : AgreeExcept name j j := ⟨rfl, fun _ _ => rfl⟩

theorem trans {name : Bytes} {a b c : Json} (h : AgreeExcept name a b) (h' : AgreeExcept name b c) :
    AgreeExcept name a c :=
  ⟨h.object.trans h'.object, fun other hother => (h.get? other hother).trans (h'.get? other hother)⟩

theorem set (j : Json) (name : Bytes) (v : Json) : AgreeExcept name (j.set name v) j := by
  cases j with
  | object members => exact ⟨rfl, fun _ hother => Ordered.get?_insert_of_ne hother v members⟩
  | _ => exact refl name _

theorem erase (j : Json) (name : Bytes) : AgreeExcept name (j.erase name) j := by
  cases j with
  | object members => exact ⟨rfl, fun _ hother => Ordered.get?_erase_of_ne hother members⟩
  | _ => exact refl name _

end Json.AgreeExcept

/-! ## Measurements -/

namespace Measurements

theorem fold_encodable {members : List (Bytes × Json)} (h : Json.EncodableMembers members) :
    Json.EncodableMembers (fold members) := by
  refine List.foldlRecOn members _ .nil fun kept hkept m hm => ?_
  dsimp only
  split
  · exact hkept.insertNew (Utf8.valid_lower (h m hm).1) (h m hm).2
  · exact hkept

/-- The limit only drops entries. -/
theorem limit_sublist (rules : MeasurementRules) (room : Nat) (entries : List (Bytes × Json)) :
    (limit rules room entries).Sublist entries := by
  fun_induction limit rules room entries with
  | case1 => exact .slnil
  | case2 _ _ _ _ _ ih => exact ih.cons_cons _
  | case3 _ _ _ _ ih => exact ih.cons _
  | case4 _ _ _ _ _ ih => exact ih.cons_cons _

theorem keep_encodable (rules : Option MeasurementRules) {members : List (Bytes × Json)}
    (h : Json.EncodableMembers members) : Json.EncodableMembers (keep rules members) := by
  cases rules with
  | none => exact fold_encodable h
  | some rules =>
    intro m hm
    exact fold_encodable h m ((limit_sublist rules _ _).subset hm)

theorem cap_encodable (rules : Option MeasurementRules) {event : Json}
    (h : event.encodable = true) : (cap rules event).1.encodable = true := by
  rw [cap]
  split
  · exact h
  · next members hmembers =>
    have hmembers := Json.encodable_object.mp (Json.encodable_of_get? h hmembers)
    exact Json.encodable_set h (by decide) (Json.encodable_object.mpr (keep_encodable rules hmembers))
  · exact Json.encodable_erase _ h

theorem cap_agrees (rules : Option MeasurementRules) (event : Json) :
    Json.AgreeExcept (ascii "measurements") (cap rules event).1 event := by
  rw [cap]
  split
  · exact .refl _ event
  · exact .set event _ _
  · exact .erase event _

end Measurements

/-! ## Breakdowns -/

namespace Breakdowns

theorem milliseconds_encodable (seconds : Float) : (milliseconds seconds).encodable = true := rfl

theorem entries_encodable {starts : List Bytes} (h : ∀ s ∈ starts, Utf8.valid s = true)
    (usable : List (Bytes × (Float × Float))) : Json.EncodableMembers (entries starts usable) := by
  refine Json.EncodableMembers.insert (.ofList fun m hm => ?_) (by decide)
    (milliseconds_encodable _)
  obtain ⟨start, hstart, hm⟩ := List.mem_filterMap.mp hm
  rw [timeOf?] at hm
  split at hm
  · cases hm
  · cases hm
    exact ⟨Utf8.valid_append (by decide) (h start hstart), milliseconds_encodable _⟩

theorem measure?_encodable {b : Breakdown} (h : b.Encodable) {spans : List Json} {entry : Json}
    (hentry : measure? b spans = some entry) : entry.encodable = true := by
  rw [measure?] at hentry
  split at hentry
  · cases hentry
  · cases hentry
    exact Json.encodable_object.mpr (entries_encodable h.starts _)

theorem write_encodable {b : Breakdown} (hb : b.Encodable) (spans : List Json) {event : Json}
    (h : event.encodable = true) : (write spans event b).encodable = true := by
  rw [write]
  split
  · exact h
  · next entry hentry =>
    have hwritten : ((event.get? (ascii "breakdowns")).getD (.object [])).encodable = true := by
      cases hget : event.get? (ascii "breakdowns") with
      | none => rfl
      | some v => exact Json.encodable_of_get? h hget
    exact Json.encodable_set h (by decide)
      (Json.encodable_set hwritten hb.name (measure?_encodable hb hentry))

theorem write_agrees (spans : List Json) (event : Json) (b : Breakdown) :
    Json.AgreeExcept (ascii "breakdowns") (write spans event b) event := by
  rw [write]
  split
  · exact .refl _ event
  · exact .set event _ _

theorem dropMisshapen_encodable {event : Json} (h : event.encodable = true) :
    (dropMisshapen event).encodable = true := by
  rw [dropMisshapen]
  split
  · exact h
  · exact h
  · exact Json.encodable_erase _ h

theorem dropMisshapen_agrees (event : Json) :
    Json.AgreeExcept (ascii "breakdowns") (dropMisshapen event) event := by
  rw [dropMisshapen]
  split
  · exact .refl _ event
  · exact .refl _ event
  · exact .erase event _

theorem foldl_write_encodable {breakdowns : List Breakdown} (h : ∀ b ∈ breakdowns, b.Encodable)
    (spans : List Json) {event : Json} (hevent : event.encodable = true) :
    (breakdowns.foldl (write spans) event).encodable = true := by
  induction breakdowns generalizing event with
  | nil => exact hevent
  | cons b rest ih =>
    obtain ⟨hb, hrest⟩ := List.forall_mem_cons.mp h
    exact ih hrest (write_encodable hb spans hevent)

theorem foldl_write_agrees (breakdowns : List Breakdown) (spans : List Json) (event : Json) :
    Json.AgreeExcept (ascii "breakdowns") (breakdowns.foldl (write spans) event) event := by
  induction breakdowns generalizing event with
  | nil => exact .refl _ event
  | cons b rest ih => exact (ih _).trans (write_agrees spans event b)

theorem compute_encodable {breakdowns : List Breakdown} (h : ∀ b ∈ breakdowns, b.Encodable)
    {event : Json} (hevent : event.encodable = true) :
    (compute breakdowns event).encodable = true := by
  rw [compute]
  split
  · exact hevent
  · split
    · exact foldl_write_encodable h _ (dropMisshapen_encodable hevent)
    · exact hevent

theorem compute_agrees (breakdowns : List Breakdown) (event : Json) :
    Json.AgreeExcept (ascii "breakdowns") (compute breakdowns event) event := by
  rw [compute]
  split
  · exact .refl _ event
  · split
    · exact (foldl_write_agrees breakdowns _ _).trans (dropMisshapen_agrees event)
    · exact .refl _ event

end Breakdowns

/-! ## Normal forms -/

namespace Transaction

/-- **The normal form of an event has a text if the event has one.** -/
theorem normalize_encodable {config : Config} (hconfig : config.Encodable) {event : Json}
    (h : event.encodable = true) : (normalize config event).encodable = true :=
  Breakdowns.compute_encodable hconfig (Measurements.cap_encodable _ h)

theorem normalize_object? (config : Config) (event : Json) :
    (normalize config event).object?.isSome = event.object?.isSome :=
  (Breakdowns.compute_agrees _ _).object.trans (Measurements.cap_agrees _ event).object

/-- **Normalising touches two members of an event.** -/
theorem normalize_get? (config : Config) (event : Json) (name : Bytes)
    (hmeasurements : name ≠ ascii "measurements") (hbreakdowns : name ≠ ascii "breakdowns") :
    (normalize config event).get? name = event.get? name :=
  ((Breakdowns.compute_agrees _ _).get? name hbreakdowns).trans
    ((Measurements.cap_agrees _ event).get? name hmeasurements)

end Transaction

end Telemetry

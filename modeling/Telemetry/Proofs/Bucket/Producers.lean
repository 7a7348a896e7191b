import Telemetry.Bucket.Wire
import Telemetry.Extraction
import Telemetry.Metric.Line
import Telemetry.Proofs.Bucket.Canonical
import Telemetry.Proofs.Fallible

/-!
# Where points and buckets come from

Lines, entries of batches, sessions and transactions make names in four ways: from checked parts, from
a parsed name, as constants, and by joining texts that the client chose.  What each of them yields is
canonical.
-/

namespace Telemetry

open Bytes

/-! ## Lines -/

namespace Line

variable {line : Bytes} {now : UInt64} {p : Point Float}

theorem kind_of_value {k : Kind} {parts : List Bytes} {v : Value Float} (h : value k parts = .ok v) :
    v.kind = k := by
  cases k <;> obtain ⟨_, -, h⟩ := bind_eq_ok.mp h <;> cases h <;> rfl

theorem require_eq_ok {condition : Bool} {fault : Fault} {u : Unit} :
    require condition fault = .ok u ↔ condition = true := by
  cases condition <;> simp [require]

theorem valid_of_addTag {tags tags' : Tags} {item : Bytes} (h : tags.Valid)
    (hadd : addTag tags item = .ok tags') : tags'.Valid := by
  unfold addTag at hadd
  split at hadd
  · cases hadd
    exact h
  · dsimp only at hadd
    split at hadd
    · next hkey =>
      cases hadd
      exact h.insert hkey
    · cases hadd

theorem valid_of_addSection {d d' : Details} {text : Bytes} (h : d.tags.Valid)
    (hadd : addSection d text = .ok d') : d'.tags.Valid := by
  cases text with
  | nil =>
    cases hadd
    exact h
  | cons mark rest =>
    rw [addSection] at hadd
    split at hadd
    · obtain ⟨tags, htags, hadd⟩ := bind_eq_ok.mp hadd
      cases hadd
      refine foldlM_induction h ?_ htags
      intro tags htags item _ tags' hitem
      exact valid_of_addTag htags hitem
    · split at hadd
      · obtain ⟨t, -, hadd⟩ := bind_eq_ok.mp hadd
        cases hadd
        exact h
      · cases hadd

/-- The texts of the values of a line. -/
def parts (line : Bytes) : List Bytes :=
  match split (byte '|') (trim isBlank line) with
  | [] => []
  | head :: _ => (cut? (byte ':') head).elim [] fun (_, values) => split (byte ':') values

/-- **What a line that is accepted is made of:** a valid identifier, values of its kind, and sections. -/
theorem parse_eq_ok_iff : parse line now = .ok p ↔
    ∃ (head kindText : Bytes) (sections : List Bytes) (fullName values : Bytes) (m : Identifier)
      (v : Value Float) (d : Details),
        split (byte '|') (trim isBlank line) = head :: kindText :: sections ∧
        cut? (byte ':') head = some (fullName, values) ∧
        nameParts fullName = (m.space, m.name, m.unit) ∧ m.valid = true ∧ kind kindText = .ok m.kind ∧
        value m.kind (split (byte ':') values) = .ok v ∧
        sections.foldlM addSection ⟨[], now⟩ = .ok d ∧ ⟨m.text, v, d.timestamp, d.tags⟩ = p := by
  constructor
  · intro h
    unfold parse at h
    split at h
    · next head kindText sections hline =>
      split at h
      · cases h
      · next fullName values hhead =>
        generalize hnames : nameParts fullName = names at h
        obtain ⟨space, name, unit⟩ := names
        obtain ⟨_, hspace, h⟩ := bind_eq_ok.mp h
        obtain ⟨_, hname, h⟩ := bind_eq_ok.mp h
        obtain ⟨_, hunit, h⟩ := bind_eq_ok.mp h
        obtain ⟨k, hk, h⟩ := bind_eq_ok.mp h
        obtain ⟨v, hv, h⟩ := bind_eq_ok.mp h
        obtain ⟨d, hd, h⟩ := bind_eq_ok.mp h
        cases h
        have hvalid : (Identifier.mk k space name unit).valid = true :=
          Identifier.valid_iff.mpr
            ⟨require_eq_ok.mp hspace, require_eq_ok.mp hname, require_eq_ok.mp hunit⟩
        exact ⟨head, kindText, sections, fullName, values, ⟨k, space, name, unit⟩, v, d, hline, hhead,
          hnames, hvalid, hk, hv, hd, rfl⟩
    · cases h
  · rintro ⟨head, kindText, sections, fullName, values, m, v, d, hline, hhead, hnames, hvalid, hk, hv, hd,
      rfl⟩
    obtain ⟨hspace, hname, hunit⟩ := Identifier.valid_iff.mp hvalid
    simp only [parse, hline, hhead, hnames, require, hspace, hname, hunit, if_true, hk, hv, hd, ok_bind]
    rfl

/-- A line that is accepted has a valid name and values of its kind. -/
theorem parse_eq_ok (h : parse line now = .ok p) :
    ∃ (m : Identifier) (sections : List Bytes), m.valid = true ∧ p.name = m.text ∧
      parts line ≠ [] ∧ value m.kind (parts line) = .ok p.value ∧
        sections.foldlM addSection ⟨[], now⟩ = .ok ⟨p.tags, p.timestamp⟩ := by
  obtain ⟨head, kindText, sections, fullName, values, m, v, d, hline, hhead, -, hvalid, -, hv, hd, rfl⟩ :=
    parse_eq_ok_iff.mp h
  have hparts : parts line = split (byte ':') values := by
    simp only [parts, hline, hhead, Option.elim_some]
  rw [hparts]
  exact ⟨m, sections, hvalid, rfl, split_ne_nil _ values, hv, hd⟩

theorem canonical_of_parse (h : parse line now = .ok p) : p.Canonical := by
  obtain ⟨m, sections, hvalid, hname, -, hvalue, hsections⟩ := parse_eq_ok h
  have htags : p.tags.Valid := by
    refine foldlM_induction (P := fun d : Details => d.tags.Valid) .nil ?_ hsections
    intro d hd text _ d' htext
    exact valid_of_addSection hd htext
  refine ⟨?_, htags⟩
  rw [hname, kind_of_value hvalue]
  exact Identifier.names_text hvalid

theorem canonical_of_mem_points {payload : Bytes} (h : p ∈ points payload now) : p.Canonical := by
  obtain ⟨⟨n, r⟩, hr, hp⟩ := List.mem_filterMap.mp h
  obtain ⟨⟨line, n'⟩, -, heq⟩ := List.mem_map.mp hr
  cases heq
  exact canonical_of_parse (toOption_eq_some.mp hp)

end Line

/-! ## Batches -/

namespace Wire

variable {scope : Scope} {j : Json} {b : Bucket Float}

theorem kind_of_readValue {k : Kind} {v : Value Float} (h : readValue k j = .ok v) : v.kind = k := by
  cases k
  case gauge =>
    simp only [readValue, bind_eq_ok] at h
    obtain ⟨_, -, _, -, _, -, _, -, _, -, _, -, h⟩ := h
    cases h
    rfl
  case distribution | set =>
    simp only [readValue, bind_eq_ok] at h
    obtain ⟨_, -, _, -, h⟩ := h
    cases h
    rfl
  case counter =>
    simp only [readValue, bind_eq_ok] at h
    obtain ⟨_, -, h⟩ := h
    cases h
    rfl

theorem valid_of_readTags {tags : Tags} (h : readTags j = .ok tags) : tags.Valid := by
  unfold readTags at h
  split at h
  · refine foldlM_induction Tags.Valid.nil ?_ h
    intro tags htags entry _ tags' hentry
    unfold addTag at hentry
    split at hentry
    · next hkey =>
      obtain ⟨value, -, hentry⟩ := bind_eq_ok.mp hentry
      cases hentry
      exact htags.insert hkey
    · cases hentry
  · cases h
    exact .nil

theorem expect_eq_ok {α : Type} {view : Option α} {fault : Fault} {a : α} :
    expect view fault = .ok a ↔ view = some a := by
  cases view <;> simp [expect]

/-- What a bucket that is accepted is made of. -/
theorem readBucket_eq_ok (h : readBucket scope j = .ok b) : b.Canonical ∧ b.key.scope = scope := by
  simp only [readBucket, bind_eq_ok] at h
  obtain ⟨_, -, name, -, m, hm, _, -, _, -, _, -, _, -, v, hv, tags, htags, h⟩ := h
  cases h
  have hnames := Identifier.names_text (Identifier.valid_of_parse? (expect_eq_ok.mp hm))
  refine ⟨⟨?_, valid_of_readTags htags⟩, rfl⟩
  rw [Bucket.kind, kind_of_readValue hv]
  exact hnames

theorem canonical_of_readAll? {payload : Bytes} {results : List (Except Fault (Bucket Float))}
    (h : readAll? payload scope = some results) :
    ∀ b ∈ buckets results, b.Canonical ∧ b.key.scope = scope := by
  intro b hb
  obtain ⟨r, hr, hb⟩ := List.mem_filterMap.mp hb
  obtain ⟨j, -, h⟩ := Option.bind_eq_some_iff.mp h
  obtain ⟨items, -, rfl⟩ := Option.map_eq_some_iff.mp h
  obtain ⟨item, -, rfl⟩ := List.mem_map.mp hr
  exact readBucket_eq_ok (toOption_eq_some.mp hb)

end Wire

/-! ## Sessions -/

theorem Session.canonical_of_points? {session : Json} {sdk : Option Bytes} {points : List (Point Float)}
    (h : points? session sdk = some points) : ∀ p ∈ points, p.Canonical := by
  obtain ⟨release, -, h⟩ := Option.bind_eq_some_iff.mp h
  obtain ⟨started, -, h⟩ := Option.bind_eq_some_iff.mp h
  have htags : Tags.Valid (Ordered.insert (ascii "release") release <|
      Ordered.insertSome (ascii "environment") ((attributes session).text? "environment") <|
        Ordered.insertSome (ascii "sdk") sdk []) := by
    apply Tags.Valid.insert _ (by decide)
    apply Tags.Valid.insertSome _ (by decide)
    exact Tags.Valid.insertSome .nil (by decide)
  obtain rfl := Option.some.inj h
  intro p hp
  rcases List.mem_cons.mp hp with rfl | hp
  · exact ⟨(by decide : Identifier.Names counterName .counter), htags.insert (by decide)⟩
  · split at hp
    · obtain rfl := List.mem_singleton.mp hp
      exact ⟨(by decide : Identifier.Names userName .set), htags⟩
    · cases hp

/-! ## Transactions -/

namespace Transaction

theorem valid_tags (event : Json) : (tags event).Valid := by
  apply Tags.Valid.insert _ (by decide)
  apply Tags.Valid.insert _ (by decide)
  apply Tags.Valid.insertSome _ (by decide)
  apply Tags.Valid.insertSome _ (by decide)
  exact Tags.Valid.insertSome .nil (by decide)

/-- A joined name that is a valid metric name is the full name of a distribution: its unit is given, so
the name is written as it was joined, and its first letter is that of the kind. -/
theorem names_fullName {name unit : Bytes} (h : (Identifier.parse? (fullName name unit)).isSome) :
    Identifier.Names (fullName name unit) .distribution := by
  obtain ⟨m, hm⟩ := Option.isSome_iff_exists.mp h
  refine ⟨m, hm, Identifier.text_of_parse? hm ?_, Identifier.kind_of_parse? hm rfl⟩
  simp [fullName]

theorem names_of_duration? {event : Json} {stop : Float} {r : Reading}
    (h : duration? event stop = some r) : Identifier.Names r.name .distribution := by
  unfold duration? at h
  split at h
  · split at h
    · obtain rfl := Option.some.inj h
      apply names_fullName
      decide
    · cases h
  · cases h

theorem name_of_mem_measurements {rules : Option MeasurementRules} {event : Json} {r : Reading}
    (h : r ∈ measurements rules event) : ∃ name unit, r.name = fullName name unit := by
  obtain ⟨⟨name, entry⟩, -, h⟩ := List.mem_filterMap.mp h
  obtain ⟨x, -, rfl⟩ := Option.map_eq_some_iff.mp h
  exact ⟨_, _, rfl⟩

theorem prefix_of_mem_breakdowns {event : Json} {r : Reading} (h : r ∈ breakdowns event) :
    ∃ name unit, r.name = fullName (ascii "breakdowns." ++ name) unit := by
  obtain ⟨⟨name, entries⟩, -, h⟩ := List.mem_flatMap.mp h
  obtain ⟨⟨key, entry⟩, -, h⟩ := List.mem_filterMap.mp h
  dsimp only at h
  split at h
  · cases h
  · obtain ⟨x, -, rfl⟩ := Option.map_eq_some_iff.mp h
    exact ⟨_, _, congrArg (fullName · _) (List.append_assoc _ _ _)⟩

theorem canonical_of_points? {config : Config} {event : Json} {points : List (Point Float)}
    (h : points? config event = some points) : ∀ p ∈ points, p.Canonical := by
  obtain ⟨_, -, h⟩ := Option.bind_eq_some_iff.mp h
  obtain ⟨_, -, h⟩ := Option.bind_eq_some_iff.mp h
  obtain ⟨stop, -, h⟩ := Option.bind_eq_some_iff.mp h
  obtain rfl := Option.some.inj h
  intro p hp
  obtain ⟨r, hr, rfl⟩ := List.mem_map.mp hp
  refine ⟨?_, valid_tags event⟩
  rcases List.mem_append.mp hr with hr | hr
  · exact names_of_duration? (Option.mem_toList.mp hr)
  · obtain ⟨hmem, hnamed⟩ := List.mem_filter.mp hr
    have hname : ∃ name unit, r.name = fullName name unit := by
      rcases List.mem_append.mp hmem with hmem | hmem
      · exact name_of_mem_measurements hmem
      · obtain ⟨name, unit, hname⟩ := prefix_of_mem_breakdowns hmem
        exact ⟨_, unit, hname⟩
    obtain ⟨name, unit, hname⟩ := hname
    rw [Reading.named, hname] at hnamed
    change Identifier.Names r.name .distribution
    rw [hname]
    exact names_fullName hnamed

end Transaction

/-! ## Extraction -/

namespace Extraction

theorem precheck?_ne_extracted {config : Config} {i : Item} {decision : Decision}
    (h : precheck? config i = some decision) : decision ≠ .extracted := by
  unfold precheck? at h
  split at h
  · cases h
    exact Decision.noConfusion
  · split at h <;> cases h
    exact Decision.noConfusion

theorem canonical_of_session (sdk : Option Bytes) (config : Config) (item : Item) (value : Json) :
    ∀ p ∈ (session sdk config item value).points, p.Canonical := by
  intro p hp
  unfold session at hp
  split at hp
  · cases hp
  · split at hp
    · next hpoints => exact Session.canonical_of_points? hpoints p hp
    · cases hp

theorem canonical_of_transaction {config : Config} {item : Item} {event : Json} {r : Result}
    (h : transaction config item event = .ok r) : ∀ p ∈ r.points, p.Canonical := by
  intro p hp
  unfold transaction at h
  split at h
  · cases h
    cases hp
  · dsimp only at h
    split at h
    · next hpoints =>
      split at h
      · cases h
        exact Transaction.canonical_of_points? hpoints p hp
      · cases h
    · cases h
      cases hp

end Extraction

end Telemetry

import Telemetry.Bucket.Wire
import Telemetry.Proofs.Bucket.Canonical
import Telemetry.Proofs.Fallible
import Telemetry.Proofs.Json.Encodable
import Telemetry.Proofs.Json.RoundTrip
import Telemetry.Proofs.Metric.Members

/-!
# Batches written and read

A bucket with a canonical key has a text exactly if its tags are UTF-8 (`encodable_bucketJson`), and
that text is read as the same bucket exactly if its numbers are finite (`readBucket_bucketJson`).  So a
batch of portable buckets comes back as it was, but in the scope that the reader received it for.
-/

namespace Telemetry

namespace Json

/-! ## Members read back -/

theorem readItems_eq (items : List Json) : readItems items = items.map readBack := by
  induction items with
  | nil => rfl
  | cons j rest ih => rw [readItems, ih, List.map_cons]

theorem readMembers_eq (members : List (Bytes × Json)) :
    readMembers members = members.map fun m => (m.1, m.2.readBack) := by
  induction members with
  | nil => rfl
  | cons m rest ih =>
    obtain ⟨name, j⟩ := m
    rw [readMembers, ih, List.map_cons]

theorem readBack_array (items : List Json) : (array items).readBack = array (items.map readBack) := by
  rw [readBack, readItems_eq]

/-- An object whose members are in order keeps them. -/
theorem readBack_object {members : List (Bytes × Json)} (h : Ordered.Sorted members) :
    (object members).readBack = object (members.map fun m => (m.1, m.2.readBack)) := by
  have hsorted : Ordered.Sorted (members.map fun m => (m.1, m.2.readBack)) := by
    rw [Ordered.sorted_iff_keys] at h ⊢
    rwa [List.map_map]
  rw [readBack, readMembers_eq, Ordered.ofList_of_sorted hsorted]

theorem get?_readBack {members : List (Bytes × Json)} (h : Ordered.Sorted members) {name : Bytes}
    {j : Json} (hmem : (name, j) ∈ members) :
    (object members).readBack.get? name = some j.readBack := by
  have hsorted : Ordered.Sorted (members.map fun m => (m.1, m.2.readBack)) := by
    rw [Ordered.sorted_iff_keys] at h ⊢
    rwa [List.map_map]
  rw [readBack_object h]
  exact hsorted.get?_of_mem (List.mem_map_of_mem (f := fun m => (m.1, m.2.readBack)) hmem)

theorem getMember_of_get? {j v : Json} {name : Bytes} (h : j.get? name = some v) :
    j.getMember name = .ok v := by
  rw [getMember, h]

end Json

namespace Wire

open Bytes Json

/-! ## Values -/

theorem expect_float? {x y : Float} {fault : Fault} :
    expect (readBack (.number (.float x))).float? fault = .ok y ↔
      Binary64.isFinite x = true ∧ x = y := by
  rw [readBack, readNumber]
  split
  · next hx => simp [expect, float?, number?, Number.toFloat, hx]
  · next hx => simp [expect, float?, number?, hx]

theorem readFloat_readBack {j : Json} {name : String} {x y : Float}
    (h : j.get? (ascii name) = some (readBack (.number (.float x)))) :
    readFloat j name = .ok y ↔ Binary64.isFinite x = true ∧ x = y := by
  have hread : readFloat j name = expect (readBack (.number (.float x))).float? .malformed := by
    rw [readFloat, getMember_of_get? h]
    change access (Json.expect float? _) = _
    unfold Json.expect Wire.expect
    cases (readBack (.number (.float x))).float? <;> rfl
  rw [hread, expect_float?]

theorem readWord_readBack {j : Json} {name : String} {n : UInt64}
    (h : j.get? (ascii name) = some (readBack (.number (.unsigned n)))) :
    readWord j name = .ok n := by
  rw [readWord, getMember_of_get? h]
  rfl

theorem readMember_unsigned (m : UInt32) :
    readMember (readBack (.number (.unsigned m.toUInt64))) = .ok m := by
  have hlt : m.toUInt64.toNat < UInt32.size := by
    rw [UInt32.toNat_toUInt64]
    exact m.toNat_lt
  rw [readBack, readNumber, readMember, if_pos hlt, UInt32.toUInt32_toUInt64]

theorem mapM_expect_float? {xs ys : List Float} {fault : Fault} :
    ((xs.map fun x => readBack (.number (.float x))).mapM fun j => expect j.float? fault) = .ok ys ↔
      (∀ x ∈ xs, Binary64.isFinite x = true) ∧ xs = ys := by
  rw [mapM_eq_ok_iff, List.forall₂_map_left_iff]
  simp only [expect_float?]
  induction xs generalizing ys with
  | nil =>
    rw [List.forall₂_nil_left_iff]
    exact ⟨fun h => ⟨List.forall_mem_nil _, h.symm⟩, fun h => h.2.symm⟩
  | cons x rest ih =>
    rw [List.forall₂_cons_left_iff, List.forall_mem_cons]
    constructor
    · rintro ⟨_, more, ⟨hx, rfl⟩, hrest, rfl⟩
      obtain ⟨hfinite, rfl⟩ := ih.mp hrest
      exact ⟨⟨hx, hfinite⟩, rfl⟩
    · rintro ⟨⟨hx, hfinite⟩, rfl⟩
      exact ⟨x, rest, ⟨hx, rfl⟩, ih.mpr ⟨hfinite, rfl⟩, rfl⟩

/-- The members of a gauge. -/
def gaugeMembers (g : Gauge Float) : List (Bytes × Json) :=
  [(ascii "count", .number (.unsigned g.count)), (ascii "last", .number (.float g.last)),
    (ascii "max", .number (.float g.max)), (ascii "min", .number (.float g.min)),
    (ascii "sum", .number (.float g.sum))]

theorem sorted_gaugeMembers (g : Gauge Float) : Ordered.Sorted (gaugeMembers g) := by
  rw [Ordered.sorted_iff_keys]
  change (["count", "last", "max", "min", "sum"].map ascii).Pairwise (· < ·)
  decide

theorem get?_gaugeJson {g : Gauge Float} {name : Bytes} {j : Json} (h : (name, j) ∈ gaugeMembers g) :
    (gaugeJson g).readBack.get? name = some j.readBack :=
  get?_readBack (sorted_gaugeMembers g) h

theorem readValue_gauge {g : Gauge Float} {w : Value Float} :
    readValue .gauge (gaugeJson g).readBack = .ok w ↔ (Value.gauge g).Finite ∧ .gauge g = w := by
  have hfloat : ∀ (name : String) (x : Float), (ascii name, .number (.float x)) ∈ gaugeMembers g →
      ∀ y, readFloat (gaugeJson g).readBack name = .ok y ↔ Binary64.isFinite x = true ∧ x = y := by
    intro name x hmem y
    exact readFloat_readBack (get?_gaugeJson hmem)
  have hlast := hfloat "last" g.last (by simp [gaugeMembers])
  have hmin := hfloat "min" g.min (by simp [gaugeMembers])
  have hmax := hfloat "max" g.max (by simp [gaugeMembers])
  have hsum := hfloat "sum" g.sum (by simp [gaugeMembers])
  have hcount : readWord (gaugeJson g).readBack "count" = .ok g.count :=
    readWord_readBack (get?_gaugeJson (by simp [gaugeMembers]))
  have hobject : ∃ members, (gaugeJson g).readBack = .object members :=
    ⟨_, readBack_object (sorted_gaugeMembers g)⟩
  have hfinite : (Value.gauge g).Finite ↔ Binary64.isFinite g.last = true ∧
      Binary64.isFinite g.min = true ∧ Binary64.isFinite g.max = true ∧
        Binary64.isFinite g.sum = true := by
    simp [Value.Finite, Value.numbers]
  rw [hfinite]
  obtain ⟨members, hmembers⟩ := hobject
  simp only [readValue, bind_eq_ok, hlast, hmin, hmax, hsum, hcount]
  constructor
  · rintro ⟨_, -, _, ⟨h1, rfl⟩, _, ⟨h2, rfl⟩, _, ⟨h3, rfl⟩, _, ⟨h4, rfl⟩, _, hc, hw⟩
    cases hc
    cases hw
    exact ⟨⟨h1, h2, h3, h4⟩, rfl⟩
  · rintro ⟨⟨h1, h2, h3, h4⟩, rfl⟩
    exact ⟨members, by rw [hmembers]; rfl, _, ⟨h1, rfl⟩, _, ⟨h2, rfl⟩, _, ⟨h3, rfl⟩, _, ⟨h4, rfl⟩,
      _, rfl, rfl⟩

/-- **A value is read as it was written exactly if its numbers are finite.** -/
theorem readValue_valueJson {v w : Value Float} :
    readValue v.kind (valueJson v).readBack = .ok w ↔ v.Finite ∧ v = w := by
  cases v with
  | counter x =>
    change (expect (readBack (.number (.float x))).float? .counterNotNumber >>= fun x =>
      pure (Value.counter x)) = _ ↔ _
    rw [bind_eq_ok]
    simp only [expect_float?]
    constructor
    · rintro ⟨_, ⟨hx, rfl⟩, hw⟩
      cases hw
      refine ⟨?_, rfl⟩
      intro y hy
      rwa [List.mem_singleton.mp hy]
    · rintro ⟨hfinite, rfl⟩
      exact ⟨x, ⟨hfinite x (List.mem_singleton_self x), rfl⟩, rfl⟩
  | distribution xs =>
    rw [valueJson, readBack_array, List.map_map]
    change ((xs.map fun x => readBack (.number (.float x))).mapM
      (fun j => expect j.float? .distributionEntry) >>= fun xs => pure (Value.distribution xs)) = _ ↔ _
    rw [bind_eq_ok]
    simp only [mapM_expect_float?]
    constructor
    · rintro ⟨_, ⟨hfinite, rfl⟩, hw⟩
      cases hw
      exact ⟨hfinite, rfl⟩
    · rintro ⟨hfinite, rfl⟩
      exact ⟨xs, ⟨hfinite, rfl⟩, rfl⟩
  | set s =>
    have hmembers : (s.toList.map fun m => readBack (.number (.unsigned m.toUInt64))).mapM
        readMember = .ok s.toList := by
      rw [mapM_eq_ok_iff, List.forall₂_map_left_iff, List.forall₂_same]
      intro m _
      exact readMember_unsigned m
    rw [valueJson, readBack_array, List.map_map]
    change ((s.toList.map fun m => readBack (.number (.unsigned m.toUInt64))).mapM readMember >>=
      fun ms => pure (Value.set (Members.ofList ms))) = _ ↔ _
    rw [hmembers]
    change Except.ok (Value.set (Members.ofList s.toList)) = _ ↔ _
    rw [Members.ofList_toList, Except.ok.injEq]
    simp [Value.Finite, Value.numbers]
  | gauge g => exact readValue_gauge

/-! ## Buckets -/

variable {b : Bucket Float} {withScope : Bool} {scope : Scope}

/-- The members of a bucket. -/
def bucketMembers (withScope : Bool) (b : Bucket Float) : List (Bytes × Json) :=
  [(ascii "name", .string b.key.name)] ++
    (if withScope then [(ascii "org_id", .number (.unsigned b.key.scope.org)),
      (ascii "project_id", .number (.unsigned b.key.scope.project))] else []) ++
    (if b.key.tags.isEmpty then [] else [(ascii "tags", tagsJson b.key.tags)]) ++
    [(ascii "timestamp", .number (.unsigned b.key.timestamp)),
      (ascii "type", .string [b.kind.letter]), (ascii "value", valueJson b.value),
      (ascii "width", .number (.unsigned b.width))]

/-- The names that the members of a bucket may have, in order. -/
def memberNames : List Bytes :=
  ["name", "org_id", "project_id", "tags", "timestamp", "type", "value", "width"].map ascii

theorem names_sublist (withScope : Bool) (b : Bucket Float) :
    ((bucketMembers withScope b).map Prod.fst).Sublist memberNames := by
  cases withScope <;> cases htags : b.key.tags.isEmpty
  all_goals
    simp only [bucketMembers, htags, if_true, Bool.false_eq_true, if_false, List.cons_append,
      List.nil_append, List.map_cons, List.map_nil]
    decide

theorem sorted_bucketMembers (withScope : Bool) (b : Bucket Float) :
    Ordered.Sorted (bucketMembers withScope b) := by
  have hnames : memberNames.Pairwise (· < ·) := by decide
  rw [Ordered.sorted_iff_keys]
  exact hnames.sublist (names_sublist withScope b)

theorem get?_bucketJson {name : Bytes} {j : Json} (h : (name, j) ∈ bucketMembers withScope b) :
    (bucketJson withScope b).readBack.get? name = some j.readBack :=
  get?_readBack (sorted_bucketMembers withScope b) h

/-! ### What has a text -/

theorem encodable_valueJson (v : Value Float) : (valueJson v).encodable = true := by
  have hnumbers : ∀ {α : Type} (l : List α) (n : α → Number),
      (Json.array (l.map fun a => .number (n a))).encodable = true := by
    intro α l n
    apply encodable_array.mpr
    intro j hj
    obtain ⟨a, -, rfl⟩ := List.mem_map.mp hj
    rfl
  cases v with
  | counter x => rfl
  | distribution xs => exact hnumbers xs Number.float
  | set s => exact hnumbers s.toList fun m => .unsigned m.toUInt64
  | gauge g =>
    apply encodable_object.mpr
    simp [EncodableMembers, encodable]
    decide

theorem encodable_tagsJson {tags : Tags} (hkeys : ∀ t ∈ tags, Identifier.validTagKey t.1 = true) :
    (tagsJson tags).encodable = true ↔ tags.Textual := by
  rw [tagsJson, encodable_object]
  constructor
  · intro h t ht
    have hvalue := (h _ (List.mem_map_of_mem ht)).2
    rwa [encodable] at hvalue
  · intro h m hm
    obtain ⟨t, ht, rfl⟩ := List.mem_map.mp hm
    refine ⟨Identifier.validTagKey_utf8 (hkeys t ht), ?_⟩
    rw [encodable]
    exact h t ht

/-- **A bucket has a text exactly if its tags are UTF-8.** -/
theorem encodable_bucketJson (h : b.Canonical) :
    (bucketJson withScope b).encodable = true ↔ b.key.tags.Textual := by
  rw [← encodable_tagsJson h.tags.keys]
  change (Json.object (bucketMembers withScope b)).encodable = true ↔ _
  rw [encodable_object]
  have hnames : ∀ m ∈ bucketMembers withScope b, Utf8.valid m.1 = true := by
    have hall : ∀ name ∈ memberNames, Utf8.valid name = true := by decide
    intro m hm
    exact hall m.1 ((names_sublist withScope b).subset (List.mem_map_of_mem hm))
  have hletter : Utf8.valid [b.kind.letter] = true := by
    apply Utf8.valid_of_ascii
    intro c hc
    rw [List.mem_singleton.mp hc]
    exact b.kind.letter_ascii
  constructor
  · intro hmembers
    by_cases hempty : b.key.tags.isEmpty
    · rw [List.isEmpty_iff.mp hempty]
      rfl
    · exact (hmembers (ascii "tags", tagsJson b.key.tags) (by simp [bucketMembers, hempty])).2
  · intro htags m hm
    refine ⟨hnames m hm, ?_⟩
    simp only [bucketMembers, List.mem_append, List.mem_cons, List.not_mem_nil, or_false] at hm
    rcases hm with ((rfl | hm) | hm) | rfl | rfl | rfl | rfl
    · rw [encodable]
      exact h.named.utf8
    · cases withScope with
      | true =>
        simp only [if_true, List.mem_cons, List.not_mem_nil, or_false] at hm
        rcases hm with rfl | rfl <;> rfl
      | false => cases hm
    · split at hm
      · cases hm
      · rw [List.mem_singleton.mp hm]
        exact htags
    · rfl
    · rw [encodable]
      exact hletter
    · exact encodable_valueJson b.value
    · rfl

/-! ### What is read -/

theorem foldlM_addTag {tags : Tags} (h : ∀ t ∈ tags, Identifier.validTagKey t.1 = true)
    (before : Tags) :
    (tags.map fun t => (t.1, Json.string t.2)).foldlM addTag before =
      .ok (tags.foldl (fun m t => Ordered.insert t.1 t.2 m) before) := by
  induction tags generalizing before with
  | nil => rfl
  | cons t rest ih =>
    obtain ⟨ht, hrest⟩ := List.forall_mem_cons.mp h
    have hadd : addTag before (t.1, .string t.2) = .ok (Ordered.insert t.1 t.2 before) := by
      rw [addTag, if_pos ht]
      rfl
    rw [List.map_cons, List.foldlM_cons, hadd]
    exact ih hrest _

theorem readTags_bucketJson (h : b.Canonical) :
    readTags (bucketJson withScope b).readBack = .ok b.key.tags := by
  cases htags : b.key.tags with
  | nil =>
    have hnone : (bucketJson withScope b).readBack.get? (ascii "tags") = none := by
      change (Json.object (bucketMembers withScope b)).readBack.get? _ = none
      rw [readBack_object (sorted_bucketMembers withScope b)]
      apply Ordered.get?_eq_none_iff.mpr
      rw [List.map_map]
      cases withScope
      all_goals
        simp only [bucketMembers, htags, List.isEmpty_nil, if_true, Bool.false_eq_true, if_false,
          List.cons_append, List.nil_append, List.map_cons, List.map_nil, Function.comp_apply]
        decide
    rw [readTags, hnone]
  | cons t rest =>
    have hmem : (ascii "tags", tagsJson b.key.tags) ∈ bucketMembers withScope b := by
      simp [bucketMembers, htags]
    have hsorted : Ordered.Sorted (b.key.tags.map fun t => (t.1, Json.string t.2)) := by
      have hkeys := h.tags.sorted
      rw [Ordered.sorted_iff_keys] at hkeys ⊢
      rwa [List.map_map]
    have hread : (tagsJson b.key.tags).readBack =
        .object (b.key.tags.map fun t => (t.1, Json.string t.2)) := by
      change (Json.object (b.key.tags.map fun t => (t.1, Json.string t.2))).readBack = _
      rw [readBack_object hsorted, List.map_map]
      rfl
    rw [readTags, get?_bucketJson hmem, hread]
    change (b.key.tags.map fun t => (t.1, Json.string t.2)).foldlM addTag [] = _
    rw [foldlM_addTag h.tags.keys, ← htags]
    exact congrArg Except.ok (Ordered.ofList_of_sorted h.tags.sorted)

/-- **A bucket is read as it was written exactly if its numbers are finite**, in the scope that it was
received for. -/
theorem readBucket_bucketJson (h : b.Canonical) {r : Bucket Float} :
    readBucket scope (bucketJson withScope b).readBack = .ok r ↔
      b.value.Finite ∧ b.receivedFor scope = r := by
  obtain ⟨m, hm, htext, hkind⟩ := h.named
  generalize hj : (bucketJson withScope b).readBack = j
  have hget : ∀ {name : Bytes} {v : Json}, (name, v) ∈ bucketMembers withScope b →
      j.get? name = some v.readBack := by
    rw [← hj]
    exact get?_bucketJson
  have hobject : ∃ members, expect j.object? .notObject = .ok members := by
    rw [← hj]
    exact ⟨_, congrArg (fun j => expect (object? j) Fault.notObject)
      (readBack_object (sorted_bucketMembers withScope b))⟩
  have hname : (access do (← j.getMember (ascii "name")).expect Json.string?) = .ok b.key.name := by
    rw [getMember_of_get? (hget (v := .string b.key.name) (by simp [bucketMembers]))]
    rfl
  have hidentifier : expect (Identifier.parse? b.key.name) (.invalidName b.key.name) = .ok m := by
    rw [hm]
    rfl
  have hcheck : checkKind m b.key.name j = .ok () := by
    rw [checkKind, hget (v := .string [b.kind.letter]) (by simp [bucketMembers])]
    change (if Kind.ofLetter? b.kind.letter = some m.kind then _ else _) = _
    rw [Kind.ofLetter?_letter, hkind, if_pos rfl]
  have htimestamp : readWord j "timestamp" = .ok b.key.timestamp :=
    readWord_readBack (hget (by simp [bucketMembers]))
  have hwidth : access (j.getOr (fun v => v.number?.map Number.toWord) (ascii "width") 0) =
      .ok b.width := by
    rw [getOr, hget (v := .number (.unsigned b.width)) (by simp [bucketMembers])]
    rfl
  have hvalue : access (j.getMember (ascii "value")) = .ok (valueJson b.value).readBack := by
    rw [getMember_of_get? (hget (v := valueJson b.value) (by simp [bucketMembers]))]
    rfl
  have htags : readTags j = .ok b.key.tags := by
    rw [← hj]
    exact readTags_bucketJson h
  obtain ⟨members, hmembers⟩ := hobject
  -- what is left to fail is the value
  simp only [readBucket, hmembers, hname, hidentifier, hcheck, htimestamp, hwidth, hvalue, htags,
    ok_bind, hkind, htext, bind_eq_ok]
  change (∃ v, readValue b.value.kind _ = .ok v ∧ _) ↔ _
  simp only [readValue_valueJson]
  constructor
  · rintro ⟨_, ⟨hfinite, rfl⟩, hr⟩
    cases hr
    exact ⟨hfinite, rfl⟩
  · rintro ⟨hfinite, rfl⟩
    exact ⟨b.value, ⟨hfinite, rfl⟩, rfl⟩

/-! ## Batches -/

variable {batch : List (Bucket Float)}

/-- A batch of canonical buckets has a text exactly if all tags are UTF-8. -/
theorem write?_eq_some_iff (h : ∀ b ∈ batch, b.Canonical) {text : Bytes} :
    write? withScope batch = some text ↔ (∀ b ∈ batch, b.key.tags.Textual) ∧
      (Json.array (batch.map (bucketJson withScope))).render = text := by
  have hencodable : (Json.array (batch.map (bucketJson withScope))).encodable = true ↔
      ∀ b ∈ batch, b.key.tags.Textual := by
    rw [encodable_array, List.forall_mem_map]
    exact forall₂_congr fun b hb => encodable_bucketJson (h b hb)
  rw [write?, dump?, ← hencodable]
  split <;> simp [*]

/-- The text of a batch is read bucket by bucket. -/
theorem readAll?_of_write? {text : Bytes} (h : write? withScope batch = some text) (scope : Scope) :
    readAll? text scope =
      some (batch.map fun b => readBucket scope (bucketJson withScope b).readBack) := by
  rw [write?, dump?] at h
  split at h
  · next hencodable =>
    cases h
    rw [readAll?, parse?_render hencodable, readBack_array, List.map_map]
    change some (List.map _ (List.map _ batch)) = _
    rw [List.map_map]
    rfl
  · cases h

/-- **A batch of portable buckets is read as it was written**, with or without its scope: the same
buckets in the same order and no fault, in the scope that the reader received it for. -/
theorem readAll?_write?_of_portable (h : ∀ b ∈ batch, b.Portable) (withScope : Bool) (scope : Scope) :
    ∃ text, write? withScope batch = some text ∧
      readAll? text scope = some (batch.map fun b => .ok (b.receivedFor scope)) := by
  have hcanonical : ∀ b ∈ batch, b.Canonical := fun b hb => (h b hb).canonical
  have htextual : ∀ b ∈ batch, b.key.tags.Textual := fun b hb => (h b hb).textual
  have hwrite : write? withScope batch =
      some (Json.array (batch.map (bucketJson withScope))).render :=
    (write?_eq_some_iff hcanonical).mpr ⟨htextual, rfl⟩
  refine ⟨_, hwrite, ?_⟩
  rw [readAll?_of_write? hwrite, Option.some_inj]
  apply List.map_congr_left
  intro b hb
  exact (readBucket_bucketJson (hcanonical b hb)).mpr ⟨(h b hb).finite, rfl⟩

/-- Minus zero under a tag that is no ASCII, whole and subnormal readings, no reading, no member, and a
gauge, each in a project of its own. -/
theorem readAll?_write?_mixed :
    let batch : List (Bucket Float) :=
      [⟨⟨⟨1, 1⟩, ascii "c:custom/a@none", [(ascii "t", [0xc3, 0xa9]), (ascii "u", [])], 1700000000⟩, 10,
          .counter (Binary64.ofSignBits true 0)⟩,
        ⟨⟨⟨1, 2⟩, ascii "d:custom/a.b@byte", [], 0⟩, 10,
          .distribution [3, Binary64.ofSignBits false 1, Binary64.ofSignBits true 0x7fefffffffffffff]⟩,
        ⟨⟨⟨1, 3⟩, ascii "d:custom/a@none", [], 10⟩, 10, .distribution []⟩,
        ⟨⟨⟨1, 4⟩, ascii "s:custom/a/b@none", [], 10⟩, 0, .set Members.empty⟩,
        ⟨⟨⟨1, 5⟩, ascii "g:custom/a@none", [], 10⟩, 10, .gauge ⟨1, 0, 3, 4, 0xffffffffffffffff⟩⟩]
    (∀ b ∈ batch, b.Portable) ∧ ∃ text, write? true batch = some text ∧
      readAll? text ⟨7, 42⟩ = some (batch.map fun b => .ok (b.receivedFor ⟨7, 42⟩)) := by
  intro batch
  have h : ∀ b ∈ batch, b.Portable := by decide +kernel
  exact ⟨h, readAll?_write?_of_portable h true ⟨7, 42⟩⟩

end Wire

end Telemetry

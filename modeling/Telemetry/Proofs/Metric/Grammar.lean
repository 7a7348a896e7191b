import Telemetry.Proofs.Bucket.Producers
import Telemetry.Proofs.Ordered

/-!
# The grammar of submission lines

A `Spelling` is what a line says: the parts of a name, values, a kind and sections, each as it is
written.  `Spelling.WF` is the grammar and `Spelling.Means` the point that a line submits.  A line is
accepted exactly if it is, but for blanks around it, the text of a spelling in the grammar whose name has
a slash only behind a namespace, and then it yields the point that the spelling means
(`parse_eq_ok_iff_spelled`).

The condition on the slash cannot be left out: the first slash ends a namespace, so that a name with a
slash and no namespace in front of it is refused (`parse_slash_without_namespace`).
-/

namespace Telemetry.Line

open Bytes

/-! ## Spellings -/

/-- An item of a tag section. -/
inductive TagItem where
  | empty
  | key (key : Bytes)
  | pair (key value : Bytes)

namespace TagItem

def text : TagItem → Bytes
  | empty => []
  | key k => k
  | pair k v => k ++ byte ':' :: v

/-- A valid key, and a value that ends neither the item nor the section. -/
def WF : TagItem → Prop
  | empty => True
  | key k => Identifier.validTagKey k = true
  | pair k v => Identifier.validTagKey k = true ∧ byte ',' ∉ v ∧ byte '|' ∉ v

/-- The tag that an item gives; a missing value is empty. -/
def entry? : TagItem → Option (Bytes × Bytes)
  | empty => none
  | key k => some (k, [])
  | pair k v => some (k, v)

end TagItem

/-- A section behind the kind. -/
inductive Section where
  | empty
  | tags (items : List TagItem)
  | time (digits : Bytes)

namespace Section

def text : Section → Bytes
  | empty => []
  | tags items => byte '#' :: [byte ','].intercalate (items.map TagItem.text)
  | time digits => byte 'T' :: digits

/-- At least one item, each in the grammar, or decimal digits of a number of 64 bits. -/
def WF : Section → Prop
  | empty => True
  | tags items => items ≠ [] ∧ ∀ item ∈ items, item.WF
  | time digits =>
    digits ≠ [] ∧ (∀ b ∈ digits, isDigit b = true) ∧ digitsValue 10 digits < UInt64.size

def entries : Section → List (Bytes × Bytes)
  | tags items => items.filterMap TagItem.entry?
  | _ => []

def time? : Section → Option UInt64
  | time digits => some (UInt64.ofNat (digitsValue 10 digits))
  | _ => none

end Section

/-- The texts that can be values of a kind: any but the empty one for sets, else those of numbers. -/
def Accepted : Kind → Bytes → Prop
  | .set, v => v ≠ []
  | _, v => ∃ x, number v = .ok x

/-- What a line says. -/
structure Spelling where
  space : Option Bytes := none
  name : Bytes
  unit : Option Bytes := none
  values : List Bytes
  kind : Kind
  sections : List Section := []

namespace Spelling

/-- `[namespace/]name[@unit]`. -/
def fullName (s : Spelling) : Bytes :=
  s.space.elim [] (· ++ [byte '/']) ++ s.name ++ s.unit.elim [] (byte '@' :: ·)

/-- The name and the values, a colon in front of each. -/
def head (s : Spelling) : Bytes := s.fullName ++ s.values.flatMap (byte ':' :: ·)

/-- The head, the kind and the sections, a bar between them. -/
def text (s : Spelling) : Bytes :=
  s.head ++ byte '|' :: s.kind.letter :: s.sections.flatMap fun t => byte '|' :: t.text

/-- The grammar. -/
structure WF (s : Spelling) : Prop where
  space : ∀ space ∈ s.space, Identifier.validSpace space = true
  name : Identifier.validName s.name = true
  unit : ∀ unit ∈ s.unit, Identifier.validUnit unit = true
  some_value : s.values ≠ []
  values : ∀ v ∈ s.values, byte ':' ∉ v ∧ byte '|' ∉ v ∧ Accepted s.kind v
  sections : ∀ t ∈ s.sections, t.WF

/-- A slash in the name only behind a namespace. -/
def Unslashed (s : Spelling) : Prop := s.space = none → byte '/' ∉ s.name

def identifier (s : Spelling) : Identifier :=
  ⟨s.kind, s.space.getD Identifier.defaultSpace, s.name, s.unit.getD Identifier.defaultUnit⟩

/-- The tags of all sections, in order. -/
def entries (s : Spelling) : List (Bytes × Bytes) := s.sections.flatMap Section.entries

/-- The times of all sections, in order. -/
def times (s : Spelling) : List UInt64 := s.sections.filterMap Section.time?

end Spelling

/-- The rule of each kind for making a value of texts, in their order. -/
inductive Built : Kind → List Bytes → Value Float → Prop
  | counter {texts : List Bytes} {xs : List Float}
      (h : List.Forall₂ (fun text x => number text = .ok x) texts xs) :
      Built .counter texts (.counter (xs.foldl (· + ·) 0))
  | distribution {texts : List Bytes} {xs : List Float}
      (h : List.Forall₂ (fun text x => number text = .ok x) texts xs) :
      Built .distribution texts (.distribution xs)
  | set {texts : List Bytes} (h : ∀ text ∈ texts, text ≠ []) :
      Built .set texts (.set (Members.ofList (texts.map Members.ofText)))
  | gauge {texts : List Bytes} {xs : List Float}
      (h : List.Forall₂ (fun text x => number text = .ok x) texts xs) :
      Built .gauge texts (.gauge (Gauge.ofList xs))

/-- The point that a spelling stands for: of the entries of a tag the last one counts, and of the times
the last one, if there is one. -/
structure Spelling.Means (s : Spelling) (now : UInt64) (p : Point Float) : Prop where
  name : p.name = s.identifier.text
  value : Built s.kind s.values p.value
  sorted : Ordered.Sorted p.tags
  tags : ∀ key, Ordered.get? key p.tags = Ordered.get? key s.entries.reverse
  timestamp : p.timestamp = s.times.getLast?.getD now

/-! ## Names -/

section Names

variable {s path before after name unit : Bytes} {b : UInt8}

theorem not_mem_of_validSpace (h : Identifier.validSpace s = true) (hb : isLower b = false) : b ∉ s := by
  intro hmem
  rw [Identifier.validSpace_mem h hmem] at hb
  cases hb

theorem not_mem_of_validName (h : Identifier.validName s = true) (hb : Identifier.isNameByte b = false) :
    b ∉ s := by
  intro hmem
  rw [Identifier.validName_mem h hmem] at hb
  cases hb

theorem not_mem_of_validUnit (h : Identifier.validUnit s = true) (hb : isWord b = false) : b ∉ s := by
  intro hmem
  rw [Identifier.validUnit_mem h hmem] at hb
  cases hb

theorem not_mem_of_validTagKey (h : Identifier.validTagKey s = true)
    (hb : Identifier.isNameByte b = false) : b ∉ s := by
  intro hmem
  simp only [Identifier.validTagKey, Bool.and_eq_true, List.all_eq_true] at h
  rw [h.2 b hmem] at hb
  cases hb

/-- A part that is spelled is the part that is read. -/
theorem eq_of_mem_of_getD {spelled : Option Bytes} {default part : Bytes} (h : spelled.getD default = part) :
    ∀ s ∈ spelled, s = part := by
  rintro s ⟨⟩
  exact h

/-- The unit is what follows the first at-sign, or the default one if there is none. -/
theorem cut_unit_iff : (cut? (byte '@') s).getD (s, Identifier.defaultUnit) = (path, unit) ↔
    byte '@' ∉ path ∧ ∃ spelled : Option Bytes,
      spelled.getD Identifier.defaultUnit = unit ∧ path ++ spelled.elim [] (byte '@' :: ·) = s := by
  constructor
  · intro h
    cases hcut : cut? (byte '@') s with
    | none =>
      rw [hcut, Option.getD_none] at h
      cases h
      exact ⟨cut?_eq_none_iff.mp hcut, none, rfl, List.append_nil s⟩
    | some halves =>
      rw [hcut, Option.getD_some] at h
      subst h
      obtain ⟨hs, hpath⟩ := cut?_eq_some_iff.mp hcut
      exact ⟨hpath, some unit, rfl, hs.symm⟩
  · rintro ⟨hpath, spelled, rfl, rfl⟩
    cases spelled with
    | none =>
      rw [Option.elim_none, List.append_nil, cut?_eq_none_iff.mpr hpath]
      rfl
    | some unit =>
      rw [Option.elim_some, cut?_eq_some_iff.mpr ⟨rfl, hpath⟩]
      rfl

/-- The namespace is what stands before the first slash, or the default one if there is none. -/
theorem cut_space_iff {space : Bytes} (hspace : byte '/' ∉ space) :
    (cut? (byte '/') path).getD (Identifier.defaultSpace, path) = (space, name) ↔
      ∃ spelled : Option Bytes, spelled.getD Identifier.defaultSpace = space ∧
        (spelled = none → byte '/' ∉ name) ∧ spelled.elim [] (· ++ [byte '/']) ++ name = path := by
  constructor
  · intro h
    cases hcut : cut? (byte '/') path with
    | none =>
      rw [hcut, Option.getD_none] at h
      cases h
      exact ⟨none, rfl, fun _ => cut?_eq_none_iff.mp hcut, rfl⟩
    | some halves =>
      rw [hcut, Option.getD_some] at h
      subst h
      obtain ⟨hpath, -⟩ := cut?_eq_some_iff.mp hcut
      refine ⟨some space, rfl, by simp, ?_⟩
      rw [hpath, Option.elim_some, List.append_assoc]
      rfl
  · rintro ⟨spelled, rfl, hname, rfl⟩
    cases spelled with
    | none =>
      rw [Option.elim_none, List.nil_append, cut?_eq_none_iff.mpr (hname rfl)]
      rfl
    | some space =>
      have hcut : cut? (byte '/') (space ++ [byte '/'] ++ name) = some (space, name) :=
        cut?_eq_some_iff.mpr ⟨List.append_assoc _ _ _, hspace⟩
      rw [Option.elim_some, hcut]
      rfl

theorem nameParts_eq_iff_cut {full space : Bytes} : nameParts full = (space, name, unit) ↔
    ∃ path, (cut? (byte '@') full).getD (full, Identifier.defaultUnit) = (path, unit) ∧
      (cut? (byte '/') path).getD (Identifier.defaultSpace, path) = (space, name) := by
  unfold nameParts
  generalize (cut? (byte '@') full).getD (full, Identifier.defaultUnit) = halves
  obtain ⟨path, unit'⟩ := halves
  dsimp only
  constructor
  · intro h
    cases h
    exact ⟨path, rfl, rfl⟩
  · rintro ⟨_, ⟨⟩, h⟩
    rw [h]

/-- **The parts of a valid name** are found in each way to spell it, but not behind a slash of their own. -/
theorem nameParts_eq_iff {m : Identifier} (h : m.valid = true) {full : Bytes} :
    nameParts full = (m.space, m.name, m.unit) ↔ ∃ space unit : Option Bytes,
      space.getD Identifier.defaultSpace = m.space ∧ unit.getD Identifier.defaultUnit = m.unit ∧
      (space = none → byte '/' ∉ m.name) ∧
      space.elim [] (· ++ [byte '/']) ++ m.name ++ unit.elim [] (byte '@' :: ·) = full := by
  obtain ⟨hspace, hname, hunit⟩ := Identifier.valid_iff.mp h
  rw [nameParts_eq_iff_cut]
  constructor
  · rintro ⟨path, hpath, hcut⟩
    obtain ⟨-, unit, hu, rfl⟩ := cut_unit_iff.mp hpath
    obtain ⟨space, hs, hslash, rfl⟩ := (cut_space_iff (Identifier.slash_not_mem_space hspace)).mp hcut
    exact ⟨space, unit, hs, hu, hslash, rfl⟩
  · rintro ⟨space, unit, hs, hu, hslash, rfl⟩
    refine ⟨_, cut_unit_iff.mpr ⟨?_, unit, hu, rfl⟩,
      (cut_space_iff (Identifier.slash_not_mem_space hspace)).mpr ⟨space, hs, hslash, rfl⟩⟩
    have hat : byte '@' ∉ m.name := not_mem_of_validName hname (by decide)
    cases space with
    | none => exact hat
    | some space =>
      have hs : space = m.space := hs
      have hspace : byte '@' ∉ space := hs ▸ Identifier.at_not_mem_space hspace
      simp [hat, hspace, show byte '@' ≠ byte '/' by decide]

end Names

/-! ## Values -/

section Values

variable {k : Kind} {texts : List Bytes} {v : Value Float}

theorem member_eq_ok_iff {text : Bytes} {m : UInt32} :
    member text = .ok m ↔ text ≠ [] ∧ Members.ofText text = m := by
  cases text <;> simp [member]

theorem members_eq_ok_iff {ms : List UInt32} :
    texts.mapM member = .ok ms ↔ (∀ text ∈ texts, text ≠ []) ∧ texts.map Members.ofText = ms :=
  mapM_eq_ok_iff_map fun _ _ => member_eq_ok_iff

theorem value_eq_ok_iff : value k texts = .ok v ↔ Built k texts v := by
  constructor
  · intro h
    cases k with
    | set =>
      obtain ⟨ms, hms, h⟩ := bind_eq_ok.mp h
      obtain ⟨htexts, rfl⟩ := members_eq_ok_iff.mp hms
      cases h
      exact .set htexts
    | counter | distribution | gauge =>
      obtain ⟨xs, hxs, h⟩ := bind_eq_ok.mp h
      cases h
      constructor
      exact mapM_eq_ok_iff.mp hxs
  · rintro (h | h | h | h)
    · exact bind_eq_ok.mpr ⟨_, mapM_eq_ok_iff.mpr h, rfl⟩
    · exact bind_eq_ok.mpr ⟨_, mapM_eq_ok_iff.mpr h, rfl⟩
    · exact bind_eq_ok.mpr ⟨_, members_eq_ok_iff.mpr ⟨h, rfl⟩, rfl⟩
    · exact bind_eq_ok.mpr ⟨_, mapM_eq_ok_iff.mpr h, rfl⟩

/-- Values can be made of the texts that a kind accepts. -/
theorem exists_built_iff : (∃ v, Built k texts v) ↔ ∀ text ∈ texts, Accepted k text := by
  constructor
  · rintro ⟨v, h | h | h | h⟩
    · exact exists_forall₂_iff.mp ⟨_, h⟩
    · exact exists_forall₂_iff.mp ⟨_, h⟩
    · exact h
    · exact exists_forall₂_iff.mp ⟨_, h⟩
  · intro h
    cases k with
    | set => exact ⟨_, .set h⟩
    | counter =>
      obtain ⟨xs, hxs⟩ := exists_forall₂_iff.mpr h
      exact ⟨_, .counter hxs⟩
    | distribution =>
      obtain ⟨xs, hxs⟩ := exists_forall₂_iff.mpr h
      exact ⟨_, .distribution hxs⟩
    | gauge =>
      obtain ⟨xs, hxs⟩ := exists_forall₂_iff.mpr h
      exact ⟨_, .gauge hxs⟩

end Values

/-! ## Sections -/

/-- What an item changes. -/
def TagItem.effect (tags : Tags) (item : TagItem) : Tags :=
  item.entry?.elim tags fun e => Ordered.insert e.1 e.2 tags

/-- What a section changes. -/
def Section.effect (d : Details) (t : Section) : Details :=
  ⟨t.entries.foldl (fun tags e => Ordered.insert e.1 e.2 tags) d.tags, t.time?.getD d.timestamp⟩

theorem addTag_eq_ok_iff {item : Bytes} (hcomma : byte ',' ∉ item) (hbar : byte '|' ∉ item)
    (tags tags' : Tags) : addTag tags item = .ok tags' ↔
      ∃ i : TagItem, i.WF ∧ i.text = item ∧ i.effect tags = tags' := by
  constructor
  · intro h
    unfold addTag at h
    split at h
    · next hempty =>
      cases h
      exact ⟨.empty, trivial, (List.isEmpty_iff.mp hempty).symm, rfl⟩
    · cases hcut : cut? (byte ':') item with
      | none =>
        simp only [hcut, Option.getD_none] at h
        split at h
        · next hkey =>
          cases h
          exact ⟨.key item, hkey, rfl, rfl⟩
        · cases h
      | some halves =>
        obtain ⟨key, value⟩ := halves
        simp only [hcut, Option.getD_some] at h
        obtain ⟨rfl, -⟩ := cut?_eq_some_iff.mp hcut
        simp only [List.mem_append, List.mem_cons, not_or] at hcomma hbar
        split at h
        · next hkey =>
          cases h
          exact ⟨.pair key value, ⟨hkey, hcomma.2.2, hbar.2.2⟩, rfl, rfl⟩
        · cases h
  · rintro ⟨i, hi, rfl, rfl⟩
    cases i with
    | empty => rfl
    | key k =>
      have hkey : Identifier.validTagKey k = true := hi
      have hne : k ≠ [] := by
        rintro rfl
        cases hkey
      have hcut : cut? (byte ':') k = none :=
        cut?_eq_none_iff.mpr (not_mem_of_validTagKey hkey (by decide))
      simp [addTag, TagItem.text, TagItem.effect, TagItem.entry?, hne, hcut, hkey]
    | pair k v =>
      obtain ⟨hkey, -, -⟩ := hi
      have hcut : cut? (byte ':') (k ++ byte ':' :: v) = some (k, v) :=
        cut?_eq_some_iff.mpr ⟨rfl, not_mem_of_validTagKey hkey (by decide)⟩
      simp [addTag, TagItem.text, TagItem.effect, TagItem.entry?, hcut, hkey]

theorem decimal?_eq_some_iff {digits : Bytes} {n : Nat} : decimal? digits = some n ↔
    digits ≠ [] ∧ (∀ b ∈ digits, isDigit b = true) ∧ digitsValue 10 digits = n := by
  rw [← List.all_eq_true, ← Bool.not_eq_false, ← and_assoc]
  unfold decimal?
  by_cases hempty : digits = []
  · simp [hempty]
  · cases hall : digits.all isDigit <;> simp [hempty]

theorem timestamp_eq_ok_iff {digits : Bytes} {t : UInt64} : timestamp digits = .ok t ↔
    (Section.time digits).WF ∧ UInt64.ofNat (digitsValue 10 digits) = t := by
  constructor
  · intro h
    unfold timestamp at h
    split at h
    · next n hn =>
      obtain ⟨hne, hdigits, rfl⟩ := decimal?_eq_some_iff.mp hn
      split at h
      · next hsize =>
        cases h
        exact ⟨⟨hne, hdigits, hsize⟩, rfl⟩
      · cases h
    · cases h
  · rintro ⟨⟨hne, hdigits, hsize⟩, rfl⟩
    rw [timestamp, decimal?_eq_some_iff.mpr ⟨hne, hdigits, rfl⟩]
    exact if_pos hsize

theorem foldl_tagEffect (items : List TagItem) (tags : Tags) :
    items.foldl TagItem.effect tags =
      (items.filterMap TagItem.entry?).foldl (fun tags e => Ordered.insert e.1 e.2 tags) tags := by
  induction items generalizing tags with
  | nil => rfl
  | cons item rest ih =>
    rw [List.foldl_cons, ih, List.filterMap_cons, TagItem.effect]
    cases item.entry? <;> rfl

/-- Items in the grammar have neither commas nor bars in their texts. -/
theorem TagItem.not_mem_text {b : UInt8} (hb : b = byte ',' ∨ b = byte '|') {item : TagItem}
    (h : item.WF) : b ∉ item.text := by
  have hclass : Identifier.isNameByte b = false := by
    rcases hb with rfl | rfl <;> decide
  have hcolon : b ≠ byte ':' := by
    rcases hb with rfl | rfl <;> decide
  cases item with
  | empty => exact List.not_mem_nil
  | key k => exact not_mem_of_validTagKey h hclass
  | pair k v =>
    obtain ⟨hkey, hcomma, hbar⟩ := h
    have hvalue : b ∉ v := by
      rcases hb with rfl | rfl
      · exact hcomma
      · exact hbar
    simp [TagItem.text, not_mem_of_validTagKey hkey hclass, hcolon, hvalue]

theorem addSection_eq_ok_iff {text : Bytes} (hbar : byte '|' ∉ text) (d d' : Details) :
    addSection d text = .ok d' ↔ ∃ t : Section, t.WF ∧ t.text = text ∧ t.effect d = d' := by
  constructor
  · intro h
    cases text with
    | nil =>
      cases h
      exact ⟨.empty, trivial, rfl, rfl⟩
    | cons mark rest =>
      have hrest : byte '|' ∉ rest := fun hmem => hbar (List.mem_cons_of_mem _ hmem)
      rw [addSection] at h
      split at h
      · next hmark =>
        obtain ⟨tags, htags, h⟩ := bind_eq_ok.mp h
        cases h
        obtain ⟨hne, hjoin, hcomma⟩ := split_eq_iff.mp (rfl : split (byte ',') rest = _)
        have hpiece : ∀ piece ∈ split (byte ',') rest, byte '|' ∉ piece := by
          intro piece hpiece hmem
          apply hrest
          rw [← hjoin]
          exact subset_intercalate hpiece hmem
        obtain ⟨items, hitems, htexts, rfl⟩ := (foldlM_eq_ok_iff fun piece h =>
          addTag_eq_ok_iff (hcomma piece h) (hpiece piece h)).mp htags
        refine ⟨.tags items, ⟨?_, hitems⟩, ?_, ?_⟩
        · rintro rfl
          exact hne htexts.symm
        · rw [Section.text, htexts, hjoin, hmark]
        · rw [Section.effect, Section.entries, ← foldl_tagEffect]
          rfl
      · split at h
        · next hmark =>
          obtain ⟨t, ht, h⟩ := bind_eq_ok.mp h
          cases h
          obtain ⟨hdigits, rfl⟩ := timestamp_eq_ok_iff.mp ht
          exact ⟨.time rest, hdigits, by rw [Section.text, hmark], rfl⟩
        · cases h
  · rintro ⟨t, ht, rfl, rfl⟩
    cases t with
    | empty => rfl
    | tags items =>
      obtain ⟨hne, hitems⟩ := ht
      have hcomma : ∀ piece ∈ items.map TagItem.text, byte ',' ∉ piece := by
        intro piece hpiece
        obtain ⟨item, hitem, rfl⟩ := List.mem_map.mp hpiece
        exact TagItem.not_mem_text (Or.inl rfl) (hitems item hitem)
      have hpiece : ∀ piece ∈ items.map TagItem.text, byte '|' ∉ piece := by
        intro piece hpiece
        obtain ⟨item, hitem, rfl⟩ := List.mem_map.mp hpiece
        exact TagItem.not_mem_text (Or.inr rfl) (hitems item hitem)
      have hsplit := split_eq_iff.mpr
        ⟨by simpa using hne, (rfl : [byte ','].intercalate (items.map TagItem.text) = _), hcomma⟩
      have htags := (foldlM_eq_ok_iff (b := d.tags) fun piece h =>
        addTag_eq_ok_iff (hcomma piece h) (hpiece piece h)).mpr ⟨items, hitems, rfl, rfl⟩
      rw [Section.text, addSection, if_pos rfl, hsplit, htags, Section.effect, Section.entries,
        ← foldl_tagEffect]
      rfl
    | time digits =>
      have htime := timestamp_eq_ok_iff.mpr ⟨ht, rfl⟩
      rw [Section.text, addSection, if_neg (by decide), if_pos rfl, htime]
      rfl

theorem foldl_effect (ts : List Section) (d : Details) :
    ts.foldl Section.effect d =
      ⟨(ts.flatMap Section.entries).foldl (fun tags e => Ordered.insert e.1 e.2 tags) d.tags,
        (ts.filterMap Section.time?).getLast?.getD d.timestamp⟩ := by
  induction ts generalizing d with
  | nil => rfl
  | cons t rest ih =>
    rw [List.foldl_cons, ih, List.flatMap_cons, List.foldl_append, Section.effect, List.filterMap_cons]
    cases t.time? with
    | none => rfl
    | some time => rw [List.getLast?_cons, Option.getD_some, Option.getD_some]

/-- Sections in the grammar have no bars in their texts. -/
theorem Section.bar_not_mem_text {t : Section} (h : t.WF) : byte '|' ∉ t.text := by
  cases t with
  | empty => exact List.not_mem_nil
  | tags items =>
    intro hmem
    rcases List.mem_cons.mp hmem with hmark | hmem
    · exact absurd hmark (by decide)
    · rcases mem_intercalate hmem with hcomma | ⟨piece, hpiece, hmem⟩
      · exact absurd hcomma (by decide)
      · obtain ⟨item, hitem, rfl⟩ := List.mem_map.mp hpiece
        exact TagItem.not_mem_text (Or.inr rfl) (h.2 item hitem) hmem
  | time digits =>
    intro hmem
    rcases List.mem_cons.mp hmem with hmark | hmem
    · exact absurd hmark (by decide)
    · exact absurd (h.2.1 _ hmem) (by decide)

/-! ## Lines -/

theorem kind_eq_ok_iff {text : Bytes} {k : Kind} : kind text = .ok k ↔ text = [k.letter] := by
  constructor
  · intro h
    unfold kind at h
    split at h
    · cases h
    · next hlength =>
      obtain ⟨b, rfl⟩ := List.length_eq_one_iff.mp (not_not.mp hlength)
      split at h
      · next hk =>
        cases h
        rw [Kind.letter_of_ofLetter? hk]
      · cases h
  · rintro rfl
    cases k <;> rfl

namespace Spelling

variable {s : Spelling} {now : UInt64} {p : Point Float}

theorem valid_identifier (h : s.WF) : s.identifier.valid = true := by
  refine Identifier.valid_iff.mpr ⟨?_, h.name, ?_⟩
  · change Identifier.validSpace (s.space.getD Identifier.defaultSpace) = true
    cases hspace : s.space with
    | none => decide
    | some space => exact h.space space hspace
  · change Identifier.validUnit (s.unit.getD Identifier.defaultUnit) = true
    cases hunit : s.unit with
    | none => decide
    | some unit => exact h.unit unit hunit

/-- A full name has neither colons nor bars. -/
theorem not_mem_fullName (h : s.WF) {b : UInt8} (hb : b = byte ':' ∨ b = byte '|') : b ∉ s.fullName := by
  have hclasses : (isLower b = false ∧ Identifier.isNameByte b = false ∧ isWord b = false) ∧
      b ≠ byte '/' ∧ b ≠ byte '@' := by
    rcases hb with rfl | rfl <;> decide
  obtain ⟨⟨hlower, hnameByte, hword⟩, hslash, hat⟩ := hclasses
  have hspace : b ∉ s.space.elim [] (· ++ [byte '/']) := by
    cases hspace : s.space with
    | none => exact List.not_mem_nil
    | some space =>
      have hmem : b ∉ space := not_mem_of_validSpace (h.space space hspace) hlower
      simp [hmem, hslash]
  have hunit : b ∉ s.unit.elim [] (byte '@' :: ·) := by
    cases hunit : s.unit with
    | none => exact List.not_mem_nil
    | some unit =>
      have hmem : b ∉ unit := not_mem_of_validUnit (h.unit unit hunit) hword
      simp [hmem, hat]
  have hname : b ∉ s.name := not_mem_of_validName h.name hnameByte
  rw [fullName, List.mem_append, List.mem_append]
  simp only [hspace, hname, hunit, or_self, not_false_eq_true]

theorem cut_head (h : s.WF) :
    cut? (byte ':') s.head = some (s.fullName, [byte ':'].intercalate s.values) := by
  refine cut?_eq_some_iff.mpr ⟨?_, not_mem_fullName h (Or.inl rfl)⟩
  rw [head, flatMap_eq_intercalate h.some_value]

theorem split_values (h : s.WF) : split (byte ':') ([byte ':'].intercalate s.values) = s.values :=
  split_eq_iff.mpr ⟨h.some_value, rfl, fun v hv => (h.values v hv).1⟩

theorem bar_not_mem_head (h : s.WF) : byte '|' ∉ s.head := by
  intro hmem
  rcases List.mem_append.mp hmem with hmem | hmem
  · exact not_mem_fullName h (Or.inr rfl) hmem
  · obtain ⟨v, hv, hmem⟩ := List.mem_flatMap.mp hmem
    rcases List.mem_cons.mp hmem with hcolon | hmem
    · exact absurd hcolon (by decide)
    · exact (h.values v hv).2.1 hmem

theorem text_eq (s : Spelling) : s.text =
    [byte '|'].intercalate (s.head :: [s.kind.letter] :: s.sections.map Section.text) := by
  rw [intercalate_cons, List.flatMap_cons, List.flatMap_map]
  rfl

theorem split_text (h : s.WF) :
    split (byte '|') s.text = s.head :: [s.kind.letter] :: s.sections.map Section.text := by
  refine split_eq_iff.mpr ⟨List.cons_ne_nil _ _, s.text_eq.symm, ?_⟩
  refine List.forall_mem_cons.mpr ⟨bar_not_mem_head h, List.forall_mem_cons.mpr ⟨?_, ?_⟩⟩
  · cases s.kind <;> decide
  · intro text htext
    obtain ⟨t, ht, rfl⟩ := List.mem_map.mp htext
    exact Section.bar_not_mem_text (h.sections t ht)

/-- The parts of the line that a spelling stands for. -/
theorem nameParts_fullName (h : s.WF) (hslash : s.Unslashed) :
    nameParts s.fullName = (s.identifier.space, s.identifier.name, s.identifier.unit) :=
  (nameParts_eq_iff (valid_identifier h)).mpr ⟨s.space, s.unit, rfl, rfl, hslash, rfl⟩

theorem foldlM_sections (h : s.WF) (now : UInt64) :
    (s.sections.map Section.text).foldlM addSection ⟨[], now⟩ =
      .ok ⟨Ordered.ofList s.entries, s.times.getLast?.getD now⟩ := by
  refine (foldlM_eq_ok_iff ?_).mpr ⟨s.sections, h.sections, rfl, foldl_effect s.sections ⟨[], now⟩⟩
  intro text htext
  obtain ⟨t, ht, rfl⟩ := List.mem_map.mp htext
  exact addSection_eq_ok_iff (Section.bar_not_mem_text (h.sections t ht))

/-- A meaning is the point of the identifier, a value, the tags as a map, and the last time. -/
theorem means_iff : s.Means now p ↔ ∃ v, Built s.kind s.values v ∧
    p = ⟨s.identifier.text, v, s.times.getLast?.getD now, Ordered.ofList s.entries⟩ := by
  constructor
  · rintro ⟨hname, hvalue, hsorted, htags, htime⟩
    have htags : p.tags = Ordered.ofList s.entries := by
      apply hsorted.ext Ordered.sorted_ofList
      intro key
      rw [htags, Ordered.get?_ofList]
    exact ⟨p.value, hvalue, by rw [← hname, ← htime, ← htags]⟩
  · rintro ⟨v, hv, rfl⟩
    exact ⟨rfl, hv, Ordered.sorted_ofList, fun key => Ordered.get?_ofList key s.entries, rfl⟩

/-- What the grammar allows has a meaning. -/
theorem exists_means (h : s.WF) (now : UInt64) : ∃ p, s.Means now p := by
  obtain ⟨v, hv⟩ := exists_built_iff.mpr fun text htext => (h.values text htext).2.2
  exact ⟨_, means_iff.mpr ⟨v, hv, rfl⟩⟩

end Spelling

variable {line : Bytes} {now : UInt64} {p : Point Float}

/-- **A line in the grammar yields what it means.** -/
theorem parse_spelled {s : Spelling} (h : s.WF) (hslash : s.Unslashed)
    (htrim : Trimmed isBlank line s.text) (hp : s.Means now p) : parse line now = .ok p := by
  obtain ⟨v, hv, rfl⟩ := Spelling.means_iff.mp hp
  refine parse_eq_ok_iff.mpr ⟨s.head, [s.kind.letter], s.sections.map Section.text, s.fullName,
    [byte ':'].intercalate s.values, s.identifier, v, _, ?_, Spelling.cut_head h,
    Spelling.nameParts_fullName h hslash, Spelling.valid_identifier h, kind_eq_ok_iff.mpr rfl, ?_,
    Spelling.foldlM_sections h now, rfl⟩
  · rw [trim_eq_iff.mpr htrim, Spelling.split_text h]
  · rw [Spelling.split_values h]
    exact value_eq_ok_iff.mpr hv

/-- **A line that is accepted is in the grammar** and yields what it means. -/
theorem exists_spelling (h : parse line now = .ok p) : ∃ s : Spelling,
    s.WF ∧ s.Unslashed ∧ Trimmed isBlank line s.text ∧ s.Means now p := by
  obtain ⟨head, kindText, sections, fullName, values, m, v, d, hline, hhead, hnames, hvalid, hk, hv, hd,
    rfl⟩ := parse_eq_ok_iff.mp h
  obtain ⟨hspace, hname, hunit⟩ := Identifier.valid_iff.mp hvalid
  obtain ⟨space, unit, hs, hu, hslash, hfull⟩ := (nameParts_eq_iff hvalid).mp hnames
  obtain ⟨-, hjoin, hbar⟩ := split_eq_iff.mp hline
  obtain ⟨hbarHead, hbarSections⟩ := List.forall_mem_cons.mp hbar
  obtain ⟨-, hbarSections⟩ := List.forall_mem_cons.mp hbarSections
  obtain ⟨ts, hts, htexts, heffect⟩ :=
    (foldlM_eq_ok_iff fun text ht => addSection_eq_ok_iff (hbarSections text ht)).mp hd
  obtain ⟨hne, hvalues, hcolon⟩ := split_eq_iff.mp (rfl : split (byte ':') values = _)
  have hbuilt := value_eq_ok_iff.mp hv
  have hhead := (cut?_eq_some_iff.mp hhead).1
  let s : Spelling := ⟨space, m.name, unit, split (byte ':') values, m.kind, ts⟩
  have hshead : s.head = head := by
    rw [Spelling.head, flatMap_eq_intercalate hne, hvalues, hhead, ← hfull]
    rfl
  have hstext : s.text = trim isBlank line := by
    rw [Spelling.text_eq, hshead, ← hjoin, kind_eq_ok_iff.mp hk, ← htexts]
  have hidentifier : s.identifier = m := by
    rw [Spelling.identifier, hs, hu]
  have hbarValue : ∀ v ∈ s.values, byte '|' ∉ v := by
    intro v hv hmem
    apply hbarHead
    rw [hhead, List.mem_append, List.mem_cons, ← hvalues]
    exact Or.inr (Or.inr (subset_intercalate hv hmem))
  refine ⟨s, ⟨?_, hname, ?_, hne, ?_, hts⟩, hslash, trim_eq_iff.mp hstext.symm, ?_⟩
  · intro spelled hspelled
    rwa [eq_of_mem_of_getD hs spelled hspelled]
  · intro spelled hspelled
    rwa [eq_of_mem_of_getD hu spelled hspelled]
  · intro v hv
    exact ⟨hcolon v hv, hbarValue v hv, exists_built_iff.mp ⟨_, hbuilt⟩ v hv⟩
  · refine Spelling.means_iff.mpr ⟨v, hbuilt, ?_⟩
    rw [hidentifier, ← heffect, foldl_effect]
    rfl

/-- **The grammar of lines.**  A line is accepted exactly if it is, but for blanks around it, the text of
a spelling in the grammar whose name has a slash only behind a namespace; and it yields exactly the points
that such a spelling of it means. -/
theorem parse_eq_ok_iff_spelled (line : Bytes) (now : UInt64) :
    ((∃ p, parse line now = .ok p) ↔
      ∃ s : Spelling, s.WF ∧ s.Unslashed ∧ Trimmed isBlank line s.text) ∧
    ∀ p, parse line now = .ok p ↔
      ∃ s : Spelling, s.WF ∧ s.Unslashed ∧ Trimmed isBlank line s.text ∧ s.Means now p := by
  refine ⟨⟨?_, ?_⟩, fun p => ⟨exists_spelling, ?_⟩⟩
  · rintro ⟨p, hp⟩
    obtain ⟨s, hwf, hslash, htrim, -⟩ := exists_spelling hp
    exact ⟨s, hwf, hslash, htrim⟩
  · rintro ⟨s, hwf, hslash, htrim⟩
    obtain ⟨p, hp⟩ := Spelling.exists_means hwf now
    exact ⟨p, parse_spelled hwf hslash htrim hp⟩
  · rintro ⟨s, hwf, hslash, htrim, hp⟩
    exact parse_spelled hwf hslash htrim hp

/-- A name with a slash and no namespace in front of it. -/
def slashed : Spelling where
  name := ascii "Transactions/foo"
  values := [ascii "1"]
  kind := .counter

/-- A name with a slash and no namespace in front of it is in the grammar, but what stands before the
slash is taken for a namespace. -/
theorem parse_slash_without_namespace :
    slashed.WF ∧ Trimmed isBlank (ascii "Transactions/foo:1|c") slashed.text ∧
      parse (ascii "Transactions/foo:1|c") 1700000000 =
        .error (.invalidNamespace (ascii "Transactions")) := by
  have hnumber : (number (ascii "1")).toOption.isSome = true := by decide +kernel
  obtain ⟨x, hx⟩ := Option.isSome_iff_exists.mp hnumber
  refine ⟨⟨by decide, by decide, by decide, by decide, ?_, List.forall_mem_nil _⟩,
    trim_eq_iff.mp (by decide), rfl⟩
  intro v hv
  obtain rfl := List.mem_singleton.mp hv
  exact ⟨by decide, by decide, x, toOption_eq_some.mp hx⟩

end Telemetry.Line

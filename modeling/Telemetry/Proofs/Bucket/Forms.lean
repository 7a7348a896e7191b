import Telemetry.Proofs.Binary64.Order
import Telemetry.Proofs.Bucket.Producers
import Telemetry.Proofs.Json.Views

/-!
# Which JSON values are buckets

A bucket is read member by member (`Form`).  Two things about the members can be taken strictly or not: which
word a number stands for, and what holds the tags.  As documented a number stands for a word only if it is
that word (`Number.Is`), and tags are an object of strings (`Labelled`).  The reader converts any number, by
truncation and modulo `2 ^ 64`, and takes tags from whatever it can iterate over (`Iterated`): a list gives
its indices as names.  `readBucket_forms` says that this is all the difference there is.
-/

namespace Telemetry

/-! ## Numbers and words -/

namespace Binary64

/-- A double that is a word converts into that word. -/
theorem toWord_eq_of_value {x : Float} {w : UInt64} (hfinite : isFinite x = true)
    (h : value x = w.toNat) : toWord x = w := by
  have hlt : value x < 2 ^ 64 := by
    rw [h]
    exact_mod_cast w.toNat_lt
  have hword := toNat_toWord hfinite (h ▸ Nat.cast_nonneg _) hlt
  rw [h, Nat.floor_natCast] at hword
  exact UInt64.toNat_inj.mp hword

end Binary64

namespace Number

/-- The number is a word, without any conversion. -/
def Is (n : Number) (w : UInt64) : Prop :=
  match n with
  | .unsigned m => m = w
  | .signed i => i.toInt = w.toNat
  | .float x => Binary64.isFinite x = true ∧ Binary64.value x = w.toNat

/-- The word that a number is converted into. -/
def Converts (n : Number) (w : UInt64) : Prop := n.toWord = w

theorem Is.converts {n : Number} {w : UInt64} (h : n.Is w) : n.Converts w := by
  cases n with
  | unsigned m => exact h
  | signed i =>
    have hbits : i.toBitVec.toInt = w.toBitVec.toNat := h
    apply UInt64.toBitVec_inj.mp
    calc i.toBitVec = BitVec.ofInt 64 i.toBitVec.toInt := BitVec.ofInt_toInt.symm
      _ = w.toBitVec := by rw [hbits, BitVec.ofInt_natCast, BitVec.ofNat_toNat, BitVec.setWidth_eq]
  | float x => exact Binary64.toWord_eq_of_value h.1 h.2

/-- A number that is a word is converted into no other one. -/
theorem is_of_converts {n : Number} {w : UInt64} (h : ∃ w', n.Is w') (hw : n.Converts w) : n.Is w := by
  obtain ⟨w', hw'⟩ := h
  obtain rfl : w' = w := hw'.converts.symm.trans hw
  exact hw'

end Number

theorem Kind.ofText?_eq_some_iff {text : Bytes} {k : Kind} :
    Kind.ofText? text = some k ↔ text = [k.letter] := by
  constructor
  · intro h
    unfold Kind.ofText? at h
    split at h
    · rw [Kind.letter_of_ofLetter? h]
    · cases h
  · rintro rfl
    exact Kind.ofLetter?_letter k

namespace Wire

open Bytes

/-! ## Members -/

section Members

variable {α : Type} {j : Json} {name : Bytes}

theorem access_getMember_eq_ok {v : Json} : access (j.getMember name) = .ok v ↔ j.get? name = some v := by
  unfold Json.getMember
  cases j.get? name <;> simp [access]

theorem access_view_eq_ok {view : Json → Option α} {a : α} :
    (access do (← j.getMember name).expect view) = .ok a ↔ ∃ v, j.get? name = some v ∧ view v = some a := by
  unfold Json.getMember
  cases j.get? name with
  | none => simp [access, bind, Except.bind]
  | some v => cases hv : view v <;> simp [access, Json.expect, hv]

theorem readFloat_eq_ok {name : String} {x : Float} :
    readFloat j name = .ok x ↔ ∃ n, j.get? (ascii name) = some (.number n) ∧ n.toFloat = x := by
  rw [readFloat, access_view_eq_ok]
  constructor
  · rintro ⟨v, hv, hx⟩
    obtain ⟨n, rfl, rfl⟩ := Json.float?_eq_some.mp hx
    exact ⟨n, hv, rfl⟩
  · rintro ⟨n, hn, rfl⟩
    exact ⟨_, hn, rfl⟩

theorem readWord_eq_ok {name : String} {w : UInt64} :
    readWord j name = .ok w ↔ ∃ n, j.get? (ascii name) = some (.number n) ∧ n.Converts w := by
  unfold readWord Json.getMember
  cases j.get? (ascii name) with
  | none => simp [access, bind, Except.bind]
  | some v => cases v <;> simp [access, Json.expect, Json.number?, Number.Converts, bind, Except.bind]

end Members

/-! ## Values -/

/-- A value and the JSON that it is read from, where the count of a gauge is read as given. -/
inductive ValueForm (word : Number → UInt64 → Prop) : Json → Value Float → Prop
  | counter (n : Number) : ValueForm word (.number n) (.counter n.toFloat)
  | distribution (ns : List Number) :
    ValueForm word (.array (ns.map .number)) (.distribution (ns.map Number.toFloat))
  | set (ms : List UInt32) :
    ValueForm word (.array (ms.map fun m => .number (.unsigned m.toUInt64))) (.set (Members.ofList ms))
  | gauge {members : List (Bytes × Json)} {last min max sum n : Number} {count : UInt64}
    (hlast : (Json.object members).get? (ascii "last") = some (.number last))
    (hmin : (Json.object members).get? (ascii "min") = some (.number min))
    (hmax : (Json.object members).get? (ascii "max") = some (.number max))
    (hsum : (Json.object members).get? (ascii "sum") = some (.number sum))
    (hcount : (Json.object members).get? (ascii "count") = some (.number n)) (hword : word n count) :
    ValueForm word (.object members) (.gauge ⟨last.toFloat, min.toFloat, max.toFloat, sum.toFloat, count⟩)

variable {j : Json} {v : Value Float}

/-- A member of a set is read exactly if it is a number without sign and fraction that fits 32 bits. -/
theorem readMember_eq_ok {m : UInt32} : readMember j = .ok m ↔ .number (.unsigned m.toUInt64) = j := by
  unfold readMember
  split
  · next n =>
    rw [Json.number.injEq, Number.unsigned.injEq]
    split
    · next hn =>
      rw [Except.ok.injEq]
      constructor
      · rintro rfl
        apply UInt64.toNat_inj.mp
        rw [UInt32.toNat_toUInt64, UInt64.toNat_toUInt32]
        exact Nat.mod_eq_of_lt hn
      · rintro rfl
        exact UInt32.toUInt32_toUInt64 m
    · next hn =>
      refine iff_of_false (fun h => nomatch h) ?_
      rintro rfl
      rw [UInt32.toNat_toUInt64] at hn
      exact hn m.toNat_lt
  · next hj =>
    refine iff_of_false (fun h => nomatch h) ?_
    rintro rfl
    exact hj _ rfl

theorem readEntries_eq_ok {items : List Json} {xs : List Float} :
    items.mapM (fun x => expect x.float? .distributionEntry) = .ok xs ↔
      ∃ ns : List Number, ns.map .number = items ∧ ns.map Number.toFloat = xs :=
  mapM_eq_ok_iff_exists fun _ _ => expect_eq_ok.trans Json.float?_eq_some

theorem readMembers_eq_ok {items : List Json} {ms : List UInt32} : items.mapM readMember = .ok ms ↔
    ms.map (fun m => .number (.unsigned m.toUInt64)) = items := by
  have hread : items.mapM readMember = .ok ms ↔ ∃ ms' : List UInt32,
      ms'.map (fun m => .number (.unsigned m.toUInt64)) = items ∧ ms'.map id = ms := by
    apply mapM_eq_ok_iff_exists
    intro j m
    simp [readMember_eq_ok]
  simpa using hread

/-- **A value is read exactly if it has the shape of its kind.** -/
theorem readValue_eq_ok_iff {k : Kind} :
    readValue k j = .ok v ↔ v.kind = k ∧ ValueForm Number.Converts j v := by
  constructor
  · intro h
    refine ⟨kind_of_readValue h, ?_⟩
    cases k <;> simp only [readValue, bind_eq_ok, expect_eq_ok] at h
    case counter =>
      obtain ⟨x, hx, h⟩ := h
      obtain ⟨n, rfl, rfl⟩ := Json.float?_eq_some.mp hx
      cases h
      exact .counter n
    case distribution =>
      obtain ⟨items, hitems, xs, hxs, h⟩ := h
      obtain rfl := Json.array?_eq_some.mp hitems
      obtain ⟨ns, rfl, rfl⟩ := readEntries_eq_ok.mp hxs
      cases h
      exact .distribution ns
    case set =>
      obtain ⟨items, hitems, ms, hms, h⟩ := h
      obtain rfl := Json.array?_eq_some.mp hitems
      obtain rfl := readMembers_eq_ok.mp hms
      cases h
      exact .set ms
    case gauge =>
      obtain ⟨members, hmembers, _, hlast', _, hmin', _, hmax', _, hsum', count, hcount', h⟩ := h
      obtain rfl := Json.object?_eq_some.mp hmembers
      obtain ⟨last, hlast, rfl⟩ := readFloat_eq_ok.mp hlast'
      obtain ⟨min, hmin, rfl⟩ := readFloat_eq_ok.mp hmin'
      obtain ⟨max, hmax, rfl⟩ := readFloat_eq_ok.mp hmax'
      obtain ⟨sum, hsum, rfl⟩ := readFloat_eq_ok.mp hsum'
      obtain ⟨n, hcount, hword⟩ := readWord_eq_ok.mp hcount'
      cases h
      exact .gauge hlast hmin hmax hsum hcount hword
  · rintro ⟨rfl, h⟩
    cases h with
    | counter n => rfl
    | distribution ns =>
      exact bind_eq_ok.mpr ⟨_, rfl, bind_eq_ok.mpr ⟨_, readEntries_eq_ok.mpr ⟨ns, rfl, rfl⟩, rfl⟩⟩
    | set ms => exact bind_eq_ok.mpr ⟨_, rfl, bind_eq_ok.mpr ⟨ms, readMembers_eq_ok.mpr rfl, rfl⟩⟩
    | gauge hlast hmin hmax hsum hcount hword =>
      refine bind_eq_ok.mpr ⟨_, rfl, bind_eq_ok.mpr ⟨_, readFloat_eq_ok.mpr ⟨_, hlast, rfl⟩, ?_⟩⟩
      refine bind_eq_ok.mpr ⟨_, readFloat_eq_ok.mpr ⟨_, hmin, rfl⟩, ?_⟩
      refine bind_eq_ok.mpr ⟨_, readFloat_eq_ok.mpr ⟨_, hmax, rfl⟩, ?_⟩
      refine bind_eq_ok.mpr ⟨_, readFloat_eq_ok.mpr ⟨_, hsum, rfl⟩, ?_⟩
      exact bind_eq_ok.mpr ⟨_, readWord_eq_ok.mpr ⟨_, hcount, hword⟩, rfl⟩

/-! ## Tags -/

/-- An object of strings under valid names, and the tags that it holds. -/
inductive Labelled : Json → Tags → Prop
  | object (ts : List (Bytes × Bytes)) (hnames : ∀ t ∈ ts, Identifier.validTagKey t.1 = true) :
    Labelled (.object (ts.map fun t => (t.1, .string t.2))) (Ordered.ofList ts)

/-- What tags are taken from: also a list of strings, which get their indices as names, and null. -/
inductive Iterated : Json → Tags → Prop
  | labelled {j : Json} {tags : Tags} (h : Labelled j tags) : Iterated j tags
  | array (texts : List Bytes)
    (hnames : ∀ t ∈ texts.zipIdx, Identifier.validTagKey (decimal t.2) = true) :
    Iterated (.array (texts.map .string)) (Ordered.ofList (texts.zipIdx.map fun t => (decimal t.2, t.1)))
  | null : Iterated .null []

theorem addTag_eq_ok_iff {tags tags' : Tags} {entry : Bytes × Json} : addTag tags entry = .ok tags' ↔
    ∃ t : Bytes × Bytes, Identifier.validTagKey t.1 = true ∧ (t.1, .string t.2) = entry ∧
      Ordered.insert t.1 t.2 tags = tags' := by
  obtain ⟨name, v⟩ := entry
  rw [addTag]
  split
  · next hname =>
    cases v with
    | string s =>
      constructor
      · rintro ⟨⟩
        exact ⟨(name, s), hname, rfl, rfl⟩
      · rintro ⟨t, -, ht, rfl⟩
        cases ht
        rfl
    | _ =>
      refine iff_of_false (fun h => nomatch h) ?_
      rintro ⟨t, -, ht, -⟩
      cases ht
  · next hname =>
    refine iff_of_false (fun h => nomatch h) ?_
    rintro ⟨t, ht, heq, -⟩
    cases heq
    exact hname ht

/-- Entries that are the items of a list under their indices are those of a list of strings. -/
theorem map_eq_map_zipIdx_iff {items : List Json} {ts : List (Bytes × Bytes)} {k : Nat} :
    ts.map (fun t => (t.1, Json.string t.2)) = (items.zipIdx k).map (fun (v, i) => (decimal i, v)) ↔
      ∃ texts : List Bytes, texts.map .string = items ∧
        (texts.zipIdx k).map (fun t => (decimal t.2, t.1)) = ts := by
  constructor
  · intro h
    induction ts generalizing items k with
    | nil =>
      cases items with
      | nil => exact ⟨[], rfl, rfl⟩
      | cons v items => cases h
    | cons t ts ih =>
      cases items with
      | nil => cases h
      | cons v items =>
        obtain ⟨hhead, htail⟩ := List.cons.inj h
        obtain ⟨texts, rfl, rfl⟩ := ih htail
        obtain ⟨hname, rfl⟩ := Prod.mk.inj hhead
        refine ⟨t.2 :: texts, rfl, ?_⟩
        rw [List.zipIdx_cons, List.map_cons, ← hname]
  · rintro ⟨texts, rfl, rfl⟩
    simp [List.zipIdx_map, Function.comp_def]

theorem foldlM_addTag_eq_ok_iff {j : Json} {tags : Tags} :
    j.entries.foldlM addTag [] = .ok tags ↔ Iterated j tags := by
  have hfold : j.entries.foldlM addTag [] = .ok tags ↔ ∃ ts : List (Bytes × Bytes),
      (∀ t ∈ ts, Identifier.validTagKey t.1 = true) ∧ ts.map (fun t => (t.1, Json.string t.2)) = j.entries ∧
        Ordered.ofList ts = tags := by
    apply foldlM_eq_ok_iff
    intro entry _ before after
    exact addTag_eq_ok_iff
  rw [hfold]
  constructor
  · rintro ⟨ts, hnames, hts, rfl⟩
    cases j with
    | null =>
      rw [List.map_eq_nil_iff.mp hts]
      exact .null
    | object members =>
      obtain rfl := hts
      exact .labelled (.object ts hnames)
    | array items =>
      obtain ⟨texts, rfl, rfl⟩ := map_eq_map_zipIdx_iff.mp hts
      exact .array texts (List.forall_mem_map.mp hnames)
    | bool | number | string =>
      -- a value by itself is iterated over under the empty name
      obtain ⟨t, rfl, ht⟩ := List.map_eq_singleton_iff.mp hts
      have hname := hnames t (List.mem_singleton_self t)
      rw [(Prod.mk.inj ht).1] at hname
      exact absurd hname (by decide)
  · intro h
    cases h with
    | labelled h =>
      cases h with
      | object ts hnames => exact ⟨ts, hnames, rfl, rfl⟩
    | array texts hnames =>
      exact ⟨_, List.forall_mem_map.mpr hnames, map_eq_map_zipIdx_iff.mpr ⟨texts, rfl, rfl⟩, rfl⟩
    | null => exact ⟨[], List.forall_mem_nil _, rfl, rfl⟩

/-! ## Buckets -/

/-- A bucket and the JSON value that it is read from, in a scope, where words and tags are read as given. -/
structure Form (word : Number → UInt64 → Prop) (tagged : Json → Tags → Prop) (scope : Scope) (j : Json)
    (b : Bucket Float) : Prop where
  object : ∃ members, j = .object members
  scope_eq : b.key.scope = scope
  name : ∃ text m, j.get? (ascii "name") = some (.string text) ∧ Identifier.parse? text = some m ∧
    b.key.name = m.text ∧ b.kind = m.kind
  /-- A type that is given is the letter of the name. -/
  type : ∀ t, j.get? (ascii "type") = some t → t = .string [b.kind.letter]
  timestamp : ∃ n, j.get? (ascii "timestamp") = some (.number n) ∧ word n b.key.timestamp
  width : j.get? (ascii "width") = none ∧ b.width = 0 ∨
    ∃ n, j.get? (ascii "width") = some (.number n) ∧ word n b.width
  value : ∃ v, j.get? (ascii "value") = some v ∧ ValueForm word v b.value
  tags : j.get? (ascii "tags") = none ∧ b.key.tags = [] ∨
    ∃ t, j.get? (ascii "tags") = some t ∧ tagged t b.key.tags

/-- The numbers of a bucket object that are read as words. -/
def words (j : Json) : List Number :=
  [j.get? (ascii "timestamp"), j.get? (ascii "width"),
    (j.get? (ascii "value")).bind fun v => v.get? (ascii "count")].filterMap fun member =>
      member.bind Json.number?

variable {scope : Scope} {b : Bucket Float}

theorem checkKind_eq_ok_iff {m : Identifier} {name : Bytes} {u : Unit} : checkKind m name j = .ok u ↔
    ∀ t, j.get? (ascii "type") = some t → t = .string [m.kind.letter] := by
  unfold checkKind
  cases j.get? (ascii "type") with
  | none => simp
  | some t =>
    cases t <;>
      simp [access, Json.expect, Json.string?, bind, Except.bind, Kind.ofText?_eq_some_iff]

theorem width_eq_ok_iff {w : UInt64} :
    access (j.getOr (fun v => v.number?.map Number.toWord) (ascii "width") 0) = .ok w ↔
      (j.get? (ascii "width") = none ∧ w = 0 ∨
        ∃ n, j.get? (ascii "width") = some (.number n) ∧ n.Converts w) := by
  unfold Json.getOr
  cases j.get? (ascii "width") with
  | none => simp [access, eq_comm]
  | some v => cases v <;> simp [access, Json.expect, Json.number?, Number.Converts]

theorem readTags_eq_ok_iff {tags : Tags} : readTags j = .ok tags ↔
    (j.get? (ascii "tags") = none ∧ tags = [] ∨ ∃ t, j.get? (ascii "tags") = some t ∧ Iterated t tags) := by
  unfold readTags
  cases j.get? (ascii "tags") with
  | none => simp [eq_comm]
  | some t => simp [foldlM_addTag_eq_ok_iff]

theorem readBucket_eq_ok_iff : readBucket scope j = .ok b ↔ Form Number.Converts Iterated scope j b := by
  simp only [readBucket, bind_eq_ok, expect_eq_ok, access_view_eq_ok, checkKind_eq_ok_iff, readWord_eq_ok,
    width_eq_ok_iff, access_getMember_eq_ok, readValue_eq_ok_iff, readTags_eq_ok_iff, Json.object?_eq_some,
    Json.string?_eq_some]
  constructor
  · rintro ⟨members, hobject, text, ⟨_, hname, rfl⟩, m, hm, _, htype, timestamp, htimestamp, width,
      hwidth, j', hj', v, ⟨hkind, hv⟩, tags, htags, h⟩
    cases h
    refine ⟨⟨members, hobject⟩, rfl, ⟨text, m, hname, hm, rfl, hkind⟩, ?_, htimestamp, hwidth,
      ⟨j', hj', hv⟩, htags⟩
    rwa [Bucket.kind, hkind]
  · intro h
    obtain ⟨members, hobject⟩ := h.object
    obtain ⟨text, m, hname, hm, htext, hkind⟩ := h.name
    obtain ⟨j', hj', hv⟩ := h.value
    refine ⟨members, hobject, text, ⟨_, hname, rfl⟩, m, hm, (), hkind ▸ h.type, _, h.timestamp, _,
      h.width, j', hj', _, ⟨hkind, hv⟩, _, h.tags, ?_⟩
    rw [← htext, ← h.scope_eq]
    rfl

/-! ## The documented form -/

theorem mem_words_iff {n : Number} : n ∈ words j ↔ j.get? (ascii "timestamp") = some (.number n) ∨
    j.get? (ascii "width") = some (.number n) ∨
      ∃ v, j.get? (ascii "value") = some v ∧ v.get? (ascii "count") = some (.number n) := by
  simp [words, Json.number?_eq_some, eq_comm (a := some (Json.number n)), Option.bind_eq_some_iff]

section Imp

variable {word word' : Number → UInt64 → Prop} {tagged tagged' : Json → Tags → Prop}

theorem ValueForm.imp (h : ValueForm word j v)
    (hword : ∀ n, j.get? (ascii "count") = some (.number n) → ∀ w, word n w → word' n w) :
    ValueForm word' j v := by
  cases h with
  | counter n => exact .counter n
  | distribution ns => exact .distribution ns
  | set ms => exact .set ms
  | gauge hlast hmin hmax hsum hcount hcounted =>
    exact .gauge hlast hmin hmax hsum hcount (hword _ hcount _ hcounted)

/-- Only a gauge has a count. -/
theorem ValueForm.exists_word_of_count (h : ValueForm word j v) {n : Number}
    (hn : j.get? (ascii "count") = some (.number n)) : ∃ w, word n w := by
  cases h with
  | counter | distribution | set => cases hn
  | gauge _ _ _ _ hcount hcounted =>
    cases hcount.symm.trans hn
    exact ⟨_, hcounted⟩

/-- A bucket that is read in one way is read in another if its words and its tags are. -/
theorem Form.imp (h : Form word tagged scope j b) (hword : ∀ n ∈ words j, ∀ w, word n w → word' n w)
    (htagged : ∀ t, j.get? (ascii "tags") = some t → ∀ tags, tagged t tags → tagged' t tags) :
    Form word' tagged' scope j b := by
  constructor
  case object => exact h.object
  case scope_eq => exact h.scope_eq
  case name => exact h.name
  case type => exact h.type
  case timestamp =>
    obtain ⟨n, hn, hw⟩ := h.timestamp
    exact ⟨n, hn, hword n (mem_words_iff.mpr (.inl hn)) _ hw⟩
  case width =>
    refine h.width.imp_right ?_
    rintro ⟨n, hn, hw⟩
    exact ⟨n, hn, hword n (mem_words_iff.mpr (.inr (.inl hn))) _ hw⟩
  case value =>
    obtain ⟨v, hv, hform⟩ := h.value
    exact ⟨v, hv, hform.imp fun n hn => hword n (mem_words_iff.mpr (.inr (.inr ⟨v, hv, hn⟩)))⟩
  case tags =>
    refine h.tags.imp_right ?_
    rintro ⟨t, ht, h⟩
    exact ⟨t, ht, htagged t ht _ h⟩

/-- Whatever is read as a word is one. -/
theorem Form.exists_word (h : Form word tagged scope j b) : ∀ n ∈ words j, ∃ w, word n w := by
  intro n hn
  rcases mem_words_iff.mp hn with hn | hn | ⟨v, hv, hn⟩
  · obtain ⟨n', hn', hword⟩ := h.timestamp
    cases hn.symm.trans hn'
    exact ⟨_, hword⟩
  · obtain ⟨hnone, -⟩ | ⟨n', hn', hword⟩ := h.width
    · cases hn.symm.trans hnone
    · cases hn.symm.trans hn'
      exact ⟨_, hword⟩
  · obtain ⟨v', hv', hform⟩ := h.value
    cases hv.symm.trans hv'
    exact hform.exists_word_of_count hn

theorem Form.exists_tagged (h : Form word tagged scope j b) :
    ∀ t, j.get? (ascii "tags") = some t → ∃ tags, tagged t tags := by
  intro t ht
  obtain ⟨hnone, -⟩ | ⟨t', ht', htagged⟩ := h.tags
  · cases ht.symm.trans hnone
  · cases ht.symm.trans ht'
    exact ⟨_, htagged⟩

end Imp

/-- **Which values are read as buckets, and when that is as documented.**  A value is read exactly if it has
the form with converted words and iterated tags, and then it has the documented form exactly if the numbers
that are read as words are words, and the tags, if there are any, are an object. -/
theorem readBucket_forms (scope : Scope) (j : Json) (b : Bucket Float) :
    (readBucket scope j = .ok b ↔ Form Number.Converts Iterated scope j b) ∧
    (Form Number.Is Labelled scope j b ↔ readBucket scope j = .ok b ∧ (∀ n ∈ words j, ∃ w, n.Is w) ∧
      ∀ t, j.get? (ascii "tags") = some t → t.object?.isSome) := by
  refine ⟨readBucket_eq_ok_iff, ?_⟩
  rw [readBucket_eq_ok_iff]
  constructor
  · intro h
    refine ⟨h.imp (fun _ _ _ => Number.Is.converts) (fun _ _ _ => .labelled), h.exists_word, ?_⟩
    intro t ht
    obtain ⟨tags, ⟨ts, -⟩⟩ := h.exists_tagged t ht
    rfl
  · rintro ⟨h, hwords, htags⟩
    refine h.imp (fun n hn w => Number.is_of_converts (hwords n hn)) fun t ht tags hiterated => ?_
    cases hiterated with
    | labelled h => exact h
    | array | null => cases htags _ ht

/-- **A bucket of undocumented form**: a time before 1970, a width with a fraction, and a list for tags.  It
is read, with a time and a width that nobody wrote and an index for the name of the tag. -/
theorem readBucket_converts :
    let j : Json := .object [(ascii "name", .string (ascii "s:custom/a@none")),
      (ascii "tags", .array [.string (ascii "x")]), (ascii "timestamp", .number (.signed (-1))),
      (ascii "value", .array []), (ascii "width", .number (.float 1.5))]
    (readBucket ⟨1, 42⟩ j).toOption.map (fun b => (b.key.timestamp, b.width, b.key.tags)) =
        some (18446744073709551615, 1, [(ascii "0", ascii "x")]) ∧
      ¬∃ b, Form Number.Is Labelled ⟨1, 42⟩ j b := by
  refine ⟨by decide +kernel, ?_⟩
  rintro ⟨b, h⟩
  obtain ⟨w, hw⟩ := h.exists_word (.signed (-1)) (mem_words_iff.mpr (.inl rfl))
  have hnegative : Int64.toInt (-1) = w.toNat := hw
  have hvalue : Int64.toInt (-1) = -1 := by decide
  omega

end Wire

end Telemetry

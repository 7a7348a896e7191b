import Telemetry.Bucket
import Telemetry.Proofs.Bytes.Cutting
import Telemetry.Proofs.Fnv
import Telemetry.Utf8

/-!
# What the hash of a bucket key is taken over

The parts of a key are written one after another, words in eight bytes and texts with a byte at their end that
no UTF-8 has.  So the bytes fall apart into the parts of a key in one way only (`bytes_eq_iff`): text that
moves from one part to another changes what is hashed (`hash_input_exact`).
-/

namespace Telemetry

theorem Utf8.not_mem_of_valid {s : Bytes} (h : valid s = true) : (0xff : UInt8) ∉ s := by
  have hstep : ∀ state, step state 0xff = none := by
    intro state
    cases state <;> decide
  have hrun : ∀ state next, run state s = some next → (0xff : UInt8) ∉ s := by
    clear h
    induction s with
    | nil => exact fun _ _ _ => List.not_mem_nil
    | cons b rest ih =>
      intro state next hnext
      rw [run] at hnext
      obtain ⟨between, hbetween, hrest⟩ := Option.bind_eq_some_iff.mp hnext
      refine List.not_mem_cons_of_ne_of_not_mem ?_ (ih between next hrest)
      rintro rfl
      rw [hstep] at hbetween
      cases hbetween
  exact hrun .lead .lead (beq_iff_eq.mp h)

namespace Fnv

/-- **A text ends at the first `0xff`**, unless it has one itself. -/
theorem terminated_append_inj {name other s t : Bytes} (h : (0xff : UInt8) ∉ name)
    (hother : (0xff : UInt8) ∉ other) :
    terminated name ++ s = terminated other ++ t ↔ name = other ∧ s = t := by
  rw [terminated, terminated, List.append_assoc, List.append_assoc, List.singleton_append,
    List.singleton_append]
  constructor
  · intro heq
    have hcut : Bytes.cut? 0xff (name ++ 0xff :: s) = some (name, s) := Bytes.cut?_eq_some_iff.mpr ⟨rfl, h⟩
    rw [Bytes.cut?_eq_some_iff.mpr ⟨heq, hother⟩] at hcut
    cases hcut
    exact ⟨rfl, rfl⟩
  · rintro ⟨rfl, rfl⟩
    rfl

end Fnv

namespace BucketKey

open Fnv (Hasher word terminated littleEndian)

variable {k k' : BucketKey}

/-! ## The bytes of a key -/

/-- No text of the key has the byte that ends a text. -/
structure Delimited (k : BucketKey) : Prop where
  name : (0xff : UInt8) ∉ k.name
  tags : ∀ e ∈ k.tags, (0xff : UInt8) ∉ e.1 ∧ (0xff : UInt8) ∉ e.2

theorem delimited_of_valid (hname : Utf8.valid k.name = true)
    (htags : ∀ e ∈ k.tags, Utf8.valid e.1 = true ∧ Utf8.valid e.2 = true) : k.Delimited :=
  ⟨Utf8.not_mem_of_valid hname,
    fun e he => ⟨Utf8.not_mem_of_valid (htags e he).1, Utf8.not_mem_of_valid (htags e he).2⟩⟩

/-- What the tags of a key write. -/
def tagBytes (tags : Tags) : Bytes := tags.flatMap fun e => terminated e.1 ++ terminated e.2

theorem tagBytes_cons (name value : Bytes) (tags : Tags) :
    tagBytes ((name, value) :: tags) = terminated name ++ (terminated value ++ tagBytes tags) := by
  rw [tagBytes, List.flatMap_cons, List.append_assoc]
  rfl

theorem bytes_eq (k : BucketKey) : k.bytes = word k.scope.org ++ (word k.scope.project ++
    (word k.timestamp ++ (terminated k.name ++ (word (UInt64.ofNat k.tags.length) ++ tagBytes k.tags)))) := by
  simp only [bytes, tagBytes, List.append_assoc]

/-- **Tags are read off their bytes**, one after another. -/
theorem tagBytes_inj {tags more : Tags} (h : ∀ e ∈ tags, (0xff : UInt8) ∉ e.1 ∧ (0xff : UInt8) ∉ e.2)
    (hmore : ∀ e ∈ more, (0xff : UInt8) ∉ e.1 ∧ (0xff : UInt8) ∉ e.2) (heq : tagBytes tags = tagBytes more) :
    tags = more := by
  induction tags generalizing more with
  | nil =>
    cases more with
    | nil => rfl
    | cons e more => simp [tagBytes, terminated] at heq
  | cons e rest ih =>
    cases more with
    | nil => simp [tagBytes, terminated] at heq
    | cons e' more =>
      obtain ⟨⟨hname, hvalue⟩, hrest⟩ := List.forall_mem_cons.mp h
      obtain ⟨⟨hname', hvalue'⟩, hmore⟩ := List.forall_mem_cons.mp hmore
      rw [tagBytes_cons, tagBytes_cons, Fnv.terminated_append_inj hname hname',
        Fnv.terminated_append_inj hvalue hvalue'] at heq
      obtain ⟨hnames, hvalues, htags⟩ := heq
      rw [Prod.ext hnames hvalues, ih hrest hmore htags]

/-- **The bytes of a key determine it.** -/
theorem bytes_eq_iff (h : k.Delimited) (h' : k'.Delimited) : k.bytes = k'.bytes ↔ k = k' := by
  constructor
  · intro heq
    rw [bytes_eq, bytes_eq, Fnv.word_append_inj, Fnv.word_append_inj, Fnv.word_append_inj,
      Fnv.terminated_append_inj h.name h'.name, Fnv.word_append_inj] at heq
    obtain ⟨⟨org, project⟩, name, tags, timestamp⟩ := k
    obtain ⟨⟨org', project'⟩, name', tags', timestamp'⟩ := k'
    -- The number of tags is not needed: nothing stands behind them.
    obtain ⟨rfl, rfl, rfl, rfl, -, htags⟩ := heq
    obtain rfl : tags = tags' := tagBytes_inj h.tags h'.tags htags
    rfl
  · rintro rfl
    rfl

/-! ## Hashing a key -/

/-- Writes the parts of a key to a hasher. -/
def feed (k : BucketKey) (h : Hasher) : Hasher :=
  let h := ((h.writeWord k.scope.org).writeWord k.scope.project).writeWord k.timestamp
  let h := (h.writeText k.name).writeWord (UInt64.ofNat k.tags.length)
  k.tags.foldl (fun h (name, value) => (h.writeText name).writeText value) h

theorem foldl_writeText (tags : Tags) (h : Hasher) :
    tags.foldl (fun h (name, value) => (h.writeText name).writeText value) h = h.write (tagBytes tags) := by
  induction tags generalizing h with
  | nil => rfl
  | cons e rest ih =>
    obtain ⟨name, value⟩ := e
    rw [List.foldl_cons, ih, tagBytes_cons, Hasher.write_append, Hasher.write_append, ← Hasher.writeText_eq,
      ← Hasher.writeText_eq]

/-- Part by part a hasher is given the bytes of the key. -/
theorem feed_eq (k : BucketKey) (h : Hasher) : k.feed h = h.write k.bytes := by
  rw [feed, foldl_writeText, Hasher.writeText_eq, bytes_eq]
  simp only [Hasher.write_append, Hasher.writeWord]

/-- The bytes of a key in numbers. -/
theorem toNat_bytes (k : BucketKey) : k.bytes.map UInt8.toNat =
    littleEndian k.scope.org.toNat ++ littleEndian k.scope.project.toNat ++ littleEndian k.timestamp.toNat ++
      (k.name.map UInt8.toNat ++ [255]) ++ littleEndian k.tags.length ++
      k.tags.flatMap fun e => (e.1.map UInt8.toNat ++ [255]) ++ (e.2.map UInt8.toNat ++ [255]) := by
  have hlength : (word (UInt64.ofNat k.tags.length)).map UInt8.toNat = littleEndian k.tags.length := by
    rw [Fnv.toNat_word, UInt64.toNat_ofNat', Fnv.littleEndian_mod]
  have htext : ∀ s : Bytes, (terminated s).map UInt8.toNat = s.map UInt8.toNat ++ [255] := fun s =>
    List.map_append
  simp only [bytes, List.map_append, List.map_flatMap, Fnv.toNat_word, hlength, htext]

/-- **What a key is hashed by determines it.**  Keys without the terminating byte in their texts, and so all
keys of UTF-8 texts, write the same bytes only if they are equal; these are the words and the terminated texts
of the key in their order; and the hash is FNV-1a over them in whatever pieces they are written. -/
theorem hash_input_exact :
    (∀ k k' : BucketKey, k.Delimited → k'.Delimited → (k.bytes = k'.bytes ↔ k = k')) ∧
    (∀ k : BucketKey, Utf8.valid k.name = true →
      (∀ e ∈ k.tags, Utf8.valid e.1 = true ∧ Utf8.valid e.2 = true) → k.Delimited) ∧
    ∀ k : BucketKey,
      k.bytes.map UInt8.toNat = littleEndian k.scope.org.toNat ++ littleEndian k.scope.project.toNat ++
        littleEndian k.timestamp.toNat ++ (k.name.map UInt8.toNat ++ [255]) ++ littleEndian k.tags.length ++
        (k.tags.flatMap fun e => (e.1.map UInt8.toNat ++ [255]) ++ (e.2.map UInt8.toNat ++ [255])) ∧
      k.hash.toNat = Fnv.fnv1a64 (k.bytes.map UInt8.toNat) ∧
      (k.feed {}).finish = k.hash ∧
      ∀ writes : List Bytes, writes.flatten = k.bytes → (writes.foldl Hasher.write {}).finish = k.hash := by
  refine ⟨fun k k' h h' => bytes_eq_iff h h', fun k hname htags => delimited_of_valid hname htags, fun k =>
    ⟨toNat_bytes k, Fnv.toNat_hash64 k.bytes, ?_, fun writes hwrites => ?_⟩⟩
  · rw [feed_eq, Hasher.finish_write]
    rfl
  · rw [Hasher.foldl_write, hwrites, Hasher.finish_write]
    rfl

/-- Text that moves from a tag's name to its value, and from there to the next tag. -/
theorem hash_input_exact_moved_text :
    let key (tags : Tags) : BucketKey := ⟨⟨1, 42⟩, ascii "c:custom/clicks@none", tags, 1700000000⟩
    let k := key [(ascii "ab", [0xc3, 0xa9]), (ascii "e", ascii "f")]
    let k' := key [(ascii "a", ascii "b" ++ [0xc3, 0xa9]), (ascii "e", ascii "f")]
    let k'' := key [(ascii "a", ascii "b"), ([0xc3, 0xa9] ++ ascii "e", ascii "f")]
    k.bytes ≠ k'.bytes ∧ k'.bytes ≠ k''.bytes ∧
      (([k.bytes.take 30, k.bytes.drop 30] : List Bytes).foldl Hasher.write {}).finish = k.hash := by
  intro key k k' k''
  obtain ⟨hinj, hvalid, hhash⟩ := hash_input_exact
  have h : k.Delimited := hvalid k (by decide) (by decide)
  have h' : k'.Delimited := hvalid k' (by decide) (by decide)
  have h'' : k''.Delimited := hvalid k'' (by decide) (by decide)
  refine ⟨?_, ?_, (hhash k).2.2.2 _ (by decide)⟩
  · rw [Ne, hinj k k' h h']
    decide
  · rw [Ne, hinj k' k'' h' h'']
    decide

/-- With the terminating byte in a text, two keys may write the same. -/
example : let key (tags : Tags) : BucketKey := ⟨⟨1, 42⟩, ascii "c:custom/clicks@none", tags, 1700000000⟩
    (key [([0x61, 0xff, 0x62], [0x63])]).bytes = (key [([0x61], [0x62, 0xff, 0x63])]).bytes := by decide

end BucketKey

end Telemetry

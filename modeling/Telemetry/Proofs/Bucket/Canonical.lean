import Telemetry.Binary64
import Telemetry.Bucket
import Telemetry.Proofs.Metric.Identifier
import Telemetry.Proofs.Ordered

/-!
# Canonical points and buckets

The name, the tags and the value of a bucket belong together: the name is the full name of a metric
of the kind of the value, the tag keys are valid, and the tags are in order.  Whoever makes points or
buckets makes canonical ones.
-/

namespace Telemetry

/-! ## Tags -/

namespace Tags

variable {tags : Tags} {key value : Bytes}

/-- The keys are tag keys, in order. -/
structure Valid (tags : Tags) : Prop where
  keys : ∀ t ∈ tags, Identifier.validTagKey t.1 = true
  sorted : Ordered.Sorted tags

theorem Valid.nil : Valid [] := ⟨List.forall_mem_nil _, Ordered.sorted_nil⟩

theorem Valid.insert (h : tags.Valid) (hkey : Identifier.validTagKey key = true) :
    Valid (Ordered.insert key value tags) := by
  refine ⟨?_, h.sorted.insert⟩
  intro t ht
  rcases Ordered.mem_insert ht with rfl | ht
  · exact hkey
  · exact h.keys t ht

theorem Valid.insertSome (h : tags.Valid) (hkey : Identifier.validTagKey key = true)
    {value : Option Bytes} : Valid (Ordered.insertSome key value tags) := by
  cases value with
  | none => exact h
  | some value => exact h.insert hkey

instance (tags : Tags) : Decidable tags.Valid :=
  decidable_of_iff ((∀ t ∈ tags, Identifier.validTagKey t.1 = true) ∧ Ordered.Sorted tags)
    ⟨fun h => ⟨h.1, h.2⟩, fun h => ⟨h.keys, h.sorted⟩⟩

/-- The values are UTF-8. -/
def Textual (tags : Tags) : Prop := ∀ t ∈ tags, Utf8.valid t.2 = true

instance (tags : Tags) : Decidable tags.Textual :=
  inferInstanceAs (Decidable (∀ t ∈ tags, Utf8.valid t.2 = true))

end Tags

/-! ## Names -/

namespace Identifier

/-- The name is read, written as it was, and of the kind. -/
def Names (name : Bytes) (kind : Kind) : Prop :=
  ∃ m, parse? name = some m ∧ m.text = name ∧ m.kind = kind

variable {name : Bytes} {kind : Kind}

theorem names_text {m : Identifier} (h : m.valid = true) : Names m.text m.kind :=
  ⟨m, parse?_text h, rfl, rfl⟩

theorem Names.utf8 (h : Names name kind) : Utf8.valid name = true := by
  obtain ⟨m, hm, hname, -⟩ := h
  rw [← hname]
  exact text_utf8 (valid_of_parse? hm)

/-- A name stands for values of one kind. -/
theorem Names.kind_unique {kind' : Kind} (h : Names name kind) (h' : Names name kind') :
    kind = kind' := by
  obtain ⟨m, hm, -, hkind⟩ := h
  obtain ⟨m', hm', -, hkind'⟩ := h'
  rw [hm] at hm'
  rw [← hkind, ← hkind', Option.some.inj hm']

theorem names_iff : Names name kind ↔
    (parse? name).any (fun m => m.text = name && m.kind = kind) = true := by
  unfold Names
  cases parse? name <;> simp

instance (name : Bytes) (kind : Kind) : Decidable (Names name kind) :=
  decidable_of_iff _ names_iff.symm

end Identifier

/-! ## Points and buckets -/

/-- A name and tags as they stand for values of a kind. -/
structure Canonical (name : Bytes) (tags : Tags) (kind : Kind) : Prop where
  named : Identifier.Names name kind
  tags : tags.Valid

instance (name : Bytes) (tags : Tags) (kind : Kind) : Decidable (Canonical name tags kind) :=
  decidable_of_iff (Identifier.Names name kind ∧ tags.Valid)
    ⟨fun h => ⟨h.1, h.2⟩, fun h => ⟨h.named, h.tags⟩⟩

/-- The point has a canonical name and tags for its value. -/
def Point.Canonical (p : Point Float) : Prop := Telemetry.Canonical p.name p.tags p.value.kind

namespace Value

/-- All numbers that a value holds. -/
def numbers {ν : Type} : Value ν → List ν
  | .counter x => [x]
  | .distribution xs => xs
  | .set _ => []
  | .gauge g => [g.last, g.min, g.max, g.sum]

/-- No number is infinite or NaN. -/
def Finite (v : Value Float) : Prop := ∀ x ∈ v.numbers, Binary64.isFinite x = true

instance (v : Value Float) : Decidable v.Finite :=
  inferInstanceAs (Decidable (∀ x ∈ v.numbers, Binary64.isFinite x = true))

end Value

namespace Bucket

/-- The bucket as a relay that received it for a scope keeps it. -/
def receivedFor {ν : Type} (scope : Scope) (b : Bucket ν) : Bucket ν :=
  { b with key := { b.key with scope } }

/-- The bucket has a canonical name and tags for its value. -/
def Canonical (b : Bucket Float) : Prop := Telemetry.Canonical b.key.name b.key.tags b.kind

instance (b : Bucket Float) : Decidable b.Canonical :=
  inferInstanceAs (Decidable (Telemetry.Canonical ..))

/-- The bucket can be sent and read. -/
structure Portable (b : Bucket Float) : Prop where
  canonical : b.Canonical
  textual : b.key.tags.Textual
  finite : b.value.Finite

instance (b : Bucket Float) : Decidable b.Portable :=
  decidable_of_iff (b.Canonical ∧ b.key.tags.Textual ∧ b.value.Finite)
    ⟨fun h => ⟨h.1, h.2.1, h.2.2⟩, fun h => ⟨h.canonical, h.textual, h.finite⟩⟩

end Bucket

end Telemetry

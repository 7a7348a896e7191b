import Telemetry.Proofs.Metric.Identifier

/-!
# Full names and their normal form

A full name is `kind:namespace/name@unit` or, with the default unit, `kind:namespace/name` (`Spelled`).
Reading accepts these texts and no others.  An identifier has one or two of them, and what is written for
it is the one with the unit: the normal form of both (`parse?_inverts_text`).
-/

namespace Telemetry

open Bytes

namespace Kind

/-- The letters of the kinds. -/
theorem exists_letter_eq_iff {b : UInt8} : (∃ k : Kind, k.letter = b) ↔ b ∈ ascii "cdsg" := by
  have hall : ascii "cdsg" = [byte 'c', byte 'd', byte 's', byte 'g'] := rfl
  rw [hall]
  constructor
  · rintro ⟨k, rfl⟩
    cases k <;> simp [letter]
  · simp only [List.mem_cons, List.not_mem_nil, or_false]
    rintro (rfl | rfl | rfl | rfl)
    exacts [⟨.counter, rfl⟩, ⟨.distribution, rfl⟩, ⟨.set, rfl⟩, ⟨.gauge, rfl⟩]

end Kind

namespace Identifier

variable {s s' : Bytes} {m : Identifier}

/-- A full name and the identifier that it stands for. -/
inductive Spelled : Bytes → Identifier → Prop
  | full (k : Kind) {space name unit : Bytes} (hspace : validSpace space = true)
      (hname : validName name = true) (hunit : validUnit unit = true) :
      Spelled (k.letter :: byte ':' :: space ++ byte '/' :: name ++ byte '@' :: unit)
        ⟨k, space, name, unit⟩
  | short (k : Kind) {space name : Bytes} (hspace : validSpace space = true)
      (hname : validName name = true) :
      Spelled (k.letter :: byte ':' :: space ++ byte '/' :: name) ⟨k, space, name, defaultUnit⟩

theorem at_not_mem_name {name : Bytes} (h : validName name = true) : byte '@' ∉ name := by
  intro hb
  exact absurd (validName_mem h hb) (by decide)

theorem validUnit_defaultUnit : validUnit defaultUnit = true := by decide

theorem Spelled.valid (h : Spelled s m) : m.valid = true := by
  cases h with
  | full k hspace hname hunit => exact valid_iff.mpr ⟨hspace, hname, hunit⟩
  | short k hspace hname => exact valid_iff.mpr ⟨hspace, hname, validUnit_defaultUnit⟩

/-- Without an at-sign a text is all name. -/
theorem splitUnit_of_not_mem (h : byte '@' ∉ s) : splitUnit s = (s, defaultUnit) := by
  have hnone : cut? (byte '@') s.reverse = none := cut?_eq_none_iff.mpr (by simpa using h)
  rw [splitUnit, cutLast?, hnone]
  rfl

theorem Spelled.parse? (h : Spelled s m) : parse? s = some m := by
  cases h with
  | full k hspace hname hunit =>
    exact parse?_text (m := ⟨k, _, _, _⟩) (valid_iff.mpr ⟨hspace, hname, hunit⟩)
  | short k hspace hname =>
    refine parse?_eq_some_iff.mpr ⟨_, rfl, ?_, valid_iff.mpr ⟨hspace, hname, validUnit_defaultUnit⟩⟩
    exact splitUnit_of_not_mem (at_not_mem_name hname)

/-- **Reading accepts the spellings of identifiers**, and no other text. -/
theorem parse?_eq_some_iff_spelled : Identifier.parse? s = some m ↔ Spelled s m := by
  refine ⟨fun h => ?_, Spelled.parse?⟩
  obtain ⟨rest, rfl, hsplit, hvalid⟩ := parse?_eq_some_iff.mp h
  obtain ⟨hspace, hname, hunit⟩ := valid_iff.mp hvalid
  obtain ⟨k, space, name, unit⟩ := m
  unfold splitUnit at hsplit
  cases hcut : cutLast? (byte '@') rest with
  | none =>
    rw [hcut] at hsplit
    cases hsplit
    exact .short k hspace hname
  | some p =>
    rw [hcut, Option.getD_some] at hsplit
    subst hsplit
    obtain ⟨rfl, -⟩ := cutLast?_eq_some_iff.mp hcut
    have hfull := Spelled.full k hspace hname hunit
    rwa [List.append_assoc] at hfull

/-- **What is written is the spelling with the unit.** -/
theorem Spelled.text (h : Spelled s m) :
    m.text = if byte '@' ∈ s then s else s ++ ascii "@none" := by
  cases h with
  | full k hspace hname hunit =>
    rw [if_pos (by simp)]
    rfl
  | @short k space name hspace hname =>
    have hmissing : byte '@' ∉ k.letter :: byte ':' :: space ++ byte '/' :: name := by
      simp only [List.mem_append, List.mem_cons, not_or]
      exact ⟨⟨k.letter_ne_at.symm, by decide, at_not_mem_space hspace⟩, by decide, at_not_mem_name hname⟩
    rw [if_neg hmissing]
    rfl

/-- Two spellings of one identifier differ in the default unit alone. -/
theorem Spelled.unique (h : Spelled s m) (h' : Spelled s' m) :
    s = s' ∨ s = s' ++ ascii "@none" ∨ s' = s ++ ascii "@none" := by
  have hboth := h.text.symm.trans h'.text
  split at hboth <;> split at hboth
  · exact Or.inl hboth
  · exact Or.inr (Or.inl hboth)
  · exact Or.inr (Or.inr hboth.symm)
  · exact Or.inl (List.append_cancel_right hboth)

/-- **Reading and writing full names are inverse.**  A valid identifier is read back from what is written
for it; reading accepts exactly the spellings of identifiers, of which what is written is the one with the
unit; and texts that are read alike are the same up to the default unit. -/
theorem parse?_inverts_text :
    (∀ m : Identifier, validSpace m.space = true → validName m.name = true →
      validUnit m.unit = true → Identifier.parse? m.text = some m) ∧
    (∀ s, (Identifier.parse? s).isSome = true ↔
      ∃ t ∈ ascii "cdsg", ∃ space name, validSpace space = true ∧ validName name = true ∧
        (s = t :: byte ':' :: space ++ byte '/' :: name ∨
          ∃ unit, validUnit unit = true ∧
            s = t :: byte ':' :: space ++ byte '/' :: name ++ byte '@' :: unit)) ∧
    (∀ s m, Identifier.parse? s = some m ↔ Spelled s m) ∧
    (∀ s m, Identifier.parse? s = some m →
      m.text = (if byte '@' ∈ s then s else s ++ ascii "@none") ∧ Identifier.parse? m.text = some m) ∧
    ∀ s s', (Identifier.parse? s).isSome = true → Identifier.parse? s = Identifier.parse? s' →
      s = s' ∨ s = s' ++ ascii "@none" ∨ s' = s ++ ascii "@none" := by
  refine ⟨fun m hspace hname hunit => parse?_text (valid_iff.mpr ⟨hspace, hname, hunit⟩), fun s => ?_,
    fun s m => parse?_eq_some_iff_spelled, fun s m h => ?_, fun s s' hs heq => ?_⟩
  · rw [Option.isSome_iff_exists]
    constructor
    · rintro ⟨m, h⟩
      cases parse?_eq_some_iff_spelled.mp h with
      | full k hspace hname hunit =>
        exact ⟨_, Kind.exists_letter_eq_iff.mp ⟨k, rfl⟩, _, _, hspace, hname, Or.inr ⟨_, hunit, rfl⟩⟩
      | short k hspace hname =>
        exact ⟨_, Kind.exists_letter_eq_iff.mp ⟨k, rfl⟩, _, _, hspace, hname, Or.inl rfl⟩
    · rintro ⟨t, ht, space, name, hspace, hname, hs⟩
      obtain ⟨k, rfl⟩ := Kind.exists_letter_eq_iff.mpr ht
      rcases hs with rfl | ⟨unit, hunit, rfl⟩
      · exact ⟨_, (Spelled.short k hspace hname).parse?⟩
      · exact ⟨_, (Spelled.full k hspace hname hunit).parse?⟩
  · have hspelled := parse?_eq_some_iff_spelled.mp h
    exact ⟨hspelled.text, parse?_text hspelled.valid⟩
  · obtain ⟨m, hm⟩ := Option.isSome_iff_exists.mp hs
    exact (parse?_eq_some_iff_spelled.mp hm).unique (parse?_eq_some_iff_spelled.mp (heq.symm.trans hm))

/-- The name may have slashes, and the first slash ends the namespace. -/
example : Identifier.parse? (ascii "d:custom/a/b") =
    some ⟨.distribution, ascii "custom", ascii "a/b", ascii "none"⟩ := by
  decide

end Identifier

end Telemetry

import Mathlib.Data.List.TakeWhile
import Telemetry.Bytes

/-!
# Cutting and trimming

Cutting at the first separator finds the one way to write a text with no separator in the first part
(`cut?_eq_some_iff`), and cutting at the last one the one way with none in the second part.  Cutting at
all of them finds the one way with none in any part (`split_eq_iff`).  Trimming finds the one body with
bytes of a class around it and at neither end (`trim_eq_iff`).
-/

namespace Telemetry.Bytes

variable {sep : UInt8} {s before after body : Bytes} {pieces : List Bytes} {p : UInt8 → Bool}

/-- **The first separator** is the one that no other precedes. -/
theorem cut?_eq_some_iff : cut? sep s = some (before, after) ↔
    s = before ++ sep :: after ∧ sep ∉ before := by
  induction s generalizing before after with
  | nil => simp [cut?]
  | cons b rest ih =>
    by_cases hb : b = sep
    · subst hb
      cases before with
      | nil => simp [cut?]
      | cons c before => simp +contextual [cut?, eq_comm]
    · have hcut : cut? sep (b :: rest) = (cut? sep rest).map fun p => (b :: p.1, p.2) := by
        simp only [cut?, List.dropWhile_cons, List.takeWhile_cons, bne_iff_ne, ne_eq, hb,
          not_false_eq_true, if_true]
        cases List.dropWhile (· != sep) rest <;> rfl
      rw [hcut]
      constructor
      · intro h
        obtain ⟨⟨x, y⟩, hxy, he⟩ := Option.map_eq_some_iff.mp h
        obtain ⟨rfl, hsep⟩ := ih.mp hxy
        cases he
        simp [hsep, Ne.symm hb]
      · rintro ⟨h, hsep⟩
        cases before with
        | nil => exact absurd (List.cons.inj h).1 hb
        | cons c before =>
          rw [List.cons_append] at h
          obtain ⟨rfl, htail⟩ := List.cons.inj h
          have hrest := ih.mpr ⟨htail, fun hmem => hsep (List.mem_cons_of_mem _ hmem)⟩
          rw [hrest]
          rfl

theorem cut?_eq_none_iff : cut? sep s = none ↔ sep ∉ s := by
  constructor
  · intro h hmem
    obtain ⟨x, y, hs, hsep⟩ := List.eq_append_cons_of_mem hmem
    rw [cut?_eq_some_iff.mpr ⟨hs, hsep⟩] at h
    cases h
  · intro h
    cases hcut : cut? sep s with
    | none => rfl
    | some p =>
      obtain ⟨hs, -⟩ := cut?_eq_some_iff.mp (hcut : _ = some (p.1, p.2))
      exact absurd (by rw [hs]; simp) h

/-- **The last separator** is the one that no other follows. -/
theorem cutLast?_eq_some_iff : cutLast? sep s = some (before, after) ↔
    s = before ++ sep :: after ∧ sep ∉ after := by
  have hreverse : s.reverse = after.reverse ++ sep :: before.reverse ↔
      s = before ++ sep :: after := by
    rw [← List.reverse_inj]
    simp
  rw [cutLast?, Option.map_eq_some_iff]
  constructor
  · rintro ⟨⟨x, y⟩, hcut, he⟩
    cases he
    obtain ⟨hs, hsep⟩ := cut?_eq_some_iff.mp hcut
    refine ⟨hreverse.mp (by simpa using hs), ?_⟩
    simpa using hsep
  · rintro ⟨hs, hsep⟩
    refine ⟨(after.reverse, before.reverse), ?_, by simp⟩
    exact cut?_eq_some_iff.mpr ⟨hreverse.mpr hs, by simpa using hsep⟩

/-! ## Pieces -/

theorem split_eq_splitOn (sep : UInt8) (s : Bytes) : split sep s = s.splitOn sep := by
  rw [split, List.splitOn_eq_splitOnP]
  induction s with
  | nil => rfl
  | cons b rest ih =>
    rw [splitWhere, List.splitOnP_cons_eq_if_modifyHead, ih]
    split
    · rfl
    · cases h : List.splitOnP (· == sep) rest with
      | nil => exact absurd (ih.trans h) (split_ne_nil sep rest)
      | cons piece more => rfl

theorem sep_not_mem_of_mem_split {piece : Bytes} (h : piece ∈ split sep s) : sep ∉ piece := by
  induction s generalizing piece with
  | nil =>
    rw [List.mem_singleton.mp h]
    exact List.not_mem_nil
  | cons b rest ih =>
    rw [split, splitWhere] at h
    split at h
    · rcases List.mem_cons.mp h with rfl | h
      · exact List.not_mem_nil
      · exact ih h
    · next hb =>
      have hne : b ≠ sep := by simpa using hb
      split at h
      · rw [List.mem_singleton.mp h]
        simpa using hne.symm
      · next first more hsplit =>
        have hfirst : sep ∉ first := ih (by rw [split, hsplit]; exact List.mem_cons_self)
        rcases List.mem_cons.mp h with rfl | h
        · simpa [hne.symm] using hfirst
        · exact ih (by rw [split, hsplit]; exact List.mem_cons_of_mem _ h)

/-- **The pieces** are the one way to write a text as texts without the separator, joined by it. -/
theorem split_eq_iff : split sep s = pieces ↔
    pieces ≠ [] ∧ [sep].intercalate pieces = s ∧ ∀ piece ∈ pieces, sep ∉ piece := by
  constructor
  · rintro rfl
    refine ⟨split_ne_nil sep s, ?_, fun piece => sep_not_mem_of_mem_split⟩
    rw [split_eq_splitOn, List.intercalate_splitOn]
  · rintro ⟨hne, rfl, hsep⟩
    rw [split_eq_splitOn, List.splitOn_intercalate sep hsep hne]

theorem intercalate_cons (sep : UInt8) (piece : Bytes) (pieces : List Bytes) :
    [sep].intercalate (piece :: pieces) = piece ++ pieces.flatMap fun next => sep :: next := by
  induction pieces generalizing piece with
  | nil => simp [List.intercalate]
  | cons next more ih =>
    rw [List.intercalate_cons_cons, ih, List.flatMap_cons]
    simp

/-- Pieces with a separator in front of each are a separator and the pieces joined. -/
theorem flatMap_eq_intercalate (h : pieces ≠ []) :
    (pieces.flatMap fun piece => sep :: piece) = sep :: [sep].intercalate pieces := by
  obtain ⟨piece, more, rfl⟩ := List.exists_cons_of_ne_nil h
  rw [intercalate_cons, List.flatMap_cons, List.cons_append]

theorem mem_intercalate {b : UInt8} (h : b ∈ [sep].intercalate pieces) :
    b = sep ∨ ∃ piece ∈ pieces, b ∈ piece := by
  cases pieces with
  | nil => cases h
  | cons first more =>
    rw [intercalate_cons, List.mem_append, List.mem_flatMap] at h
    rcases h with h | ⟨piece, hpiece, h⟩
    · exact Or.inr ⟨first, List.mem_cons_self, h⟩
    · rcases List.mem_cons.mp h with rfl | h
      · exact Or.inl rfl
      · exact Or.inr ⟨piece, List.mem_cons_of_mem _ hpiece, h⟩

theorem subset_intercalate {piece : Bytes} (h : piece ∈ pieces) : piece ⊆ [sep].intercalate pieces := by
  cases pieces with
  | nil => cases h
  | cons first more =>
    intro b hb
    rw [intercalate_cons, List.mem_append, List.mem_flatMap]
    rcases List.mem_cons.mp h with rfl | h
    · exact Or.inl hb
    · exact Or.inr ⟨piece, h, List.mem_cons_of_mem _ hb⟩

/-- Lines that each end with the separator are read back, with nothing behind the last one. -/
theorem split_terminated {lines : List Bytes} (h : ∀ line ∈ lines, sep ∉ line) :
    split sep (lines.flatMap fun line => line ++ [sep]) = lines ++ [[]] := by
  refine split_eq_iff.mpr ⟨by simp, ?_, ?_⟩
  · induction lines with
    | nil => rfl
    | cons line rest ih =>
      have hjoin := ih (fun line hline => h line (List.mem_cons_of_mem _ hline))
      cases rest with
      | nil => simp [List.intercalate]
      | cons next more =>
        rw [List.cons_append, List.cons_append, List.intercalate_cons_cons, ← List.cons_append, hjoin]
        simp
  · intro piece hpiece
    rcases List.mem_append.mp hpiece with hpiece | hpiece
    · exact h piece hpiece
    · rw [List.mem_singleton.mp hpiece]
      exact List.not_mem_nil

/-! ## Places of pieces -/

/-- At a separator the pieces part in those before it and those after it. -/
theorem split_append (sep : UInt8) (s t : Bytes) :
    split sep (s ++ sep :: t) = split sep s ++ split sep t := by
  rw [split_eq_splitOn, split_eq_splitOn, split_eq_splitOn, List.splitOn_eq_splitOnP]
  exact List.splitOnP_append_cons s t (beq_self_eq_true sep)

/-- Where two texts meet, the last piece of one and the first piece of the other are one piece. -/
theorem split_append_of {t start more : Bytes} {whole lost : List Bytes} (hs : split sep s = whole ++ [start])
    (ht : split sep t = more :: lost) : split sep (s ++ t) = whole ++ (start ++ more) :: lost := by
  obtain ⟨-, hs, hwhole⟩ := split_eq_iff.mp hs
  obtain ⟨-, ht, hlost⟩ := split_eq_iff.mp ht
  refine split_eq_iff.mpr ⟨by simp, ?_, ?_⟩
  · rw [← hs, ← ht]
    cases whole with
    | nil => simp [intercalate_cons]
    | cons first whole => simp [intercalate_cons]
  · intro piece hpiece
    rcases List.mem_append.mp hpiece with hpiece | hpiece
    · exact hwhole piece (List.mem_append_left _ hpiece)
    · rcases List.mem_cons.mp hpiece with rfl | hpiece
      · have hstart := hwhole start (by simp)
        have hmore := hlost more List.mem_cons_self
        simp [hstart, hmore]
      · exact hlost piece (List.mem_cons_of_mem _ hpiece)

theorem split_of_not_mem (h : sep ∉ s) : split sep s = [s] :=
  split_eq_iff.mpr ⟨List.cons_ne_nil _ _, List.intercalate_singleton, by simpa using h⟩

/-- There is one piece more than there are separators. -/
theorem length_split (sep : UInt8) (s : Bytes) : (split sep s).length = s.count sep + 1 := by
  induction s with
  | nil => rfl
  | cons b rest ih =>
    rw [split, splitWhere, List.count_cons]
    rw [split] at ih
    split
    · rw [List.length_cons, ih]
    · rw [← ih]
      cases h : splitWhere (· == sep) rest with
      | nil => exact absurd h (splitWhere_ne_nil _ rest)
      | cons piece more => rfl

/-- A text has a piece at a place: it has no separator in it, a separator or an end of the text at both
sides, and as many separators before it as the place says. -/
structure PieceAt (sep : UInt8) (s : Bytes) (i : Nat) (piece : Bytes) : Prop where
  whole : sep ∉ piece
  around : ∃ before after, s = before ++ piece ++ after ∧ before.count sep = i ∧
    (before = [] ∨ before.getLast? = some sep) ∧ (after = [] ∨ after.head? = some sep)

/-- What ends with a separator has its pieces to itself. -/
theorem exists_split_append (h : before = [] ∨ before.getLast? = some sep) :
    ∃ pieces : List Bytes, pieces.length = before.count sep ∧
      ∀ t, split sep (before ++ t) = pieces ++ split sep t := by
  rcases h with rfl | h
  · exact ⟨[], rfl, fun t => rfl⟩
  · obtain ⟨front, rfl⟩ := List.getLast?_eq_some_iff.mp h
    refine ⟨split sep front, ?_, fun t => ?_⟩
    · rw [length_split, List.count_append, List.count_singleton_self]
    · rw [List.append_assoc, List.singleton_append, split_append]

theorem PieceAt.getElem?_split {i : Nat} {piece : Bytes} (h : PieceAt sep s i piece) :
    (split sep s)[i]? = some piece := by
  obtain ⟨hwhole, before, after, rfl, rfl, hbefore, hafter⟩ := h
  obtain ⟨front, hlength, hsplit⟩ := exists_split_append hbefore
  have hrest : ∃ more, split sep (piece ++ after) = piece :: more := by
    rcases hafter with rfl | hafter
    · exact ⟨[], by rw [List.append_nil, split_of_not_mem hwhole]⟩
    · obtain ⟨rest, rfl⟩ := List.head?_eq_some_iff.mp hafter
      exact ⟨split sep rest, by rw [split_append, split_of_not_mem hwhole, List.singleton_append]⟩
  obtain ⟨more, hmore⟩ := hrest
  rw [List.append_assoc, hsplit, hmore, ← hlength, List.getElem?_append_right (Nat.le_refl _), Nat.sub_self,
    List.getElem?_cons_zero]

/-- Texts without the separator are the pieces of the text that joins them. -/
theorem pieceAt_intercalate {i : Nat} {piece : Bytes} (hsep : ∀ piece ∈ pieces, sep ∉ piece)
    (h : pieces[i]? = some piece) : PieceAt sep ([sep].intercalate pieces) i piece := by
  induction pieces generalizing i with
  | nil => cases h
  | cons first more ih =>
    obtain ⟨hfirst, hmore⟩ := List.forall_mem_cons.mp hsep
    cases i with
    | zero =>
      cases h
      refine ⟨hfirst, [], more.flatMap fun next => sep :: next, intercalate_cons sep _ more, rfl,
        Or.inl rfl, ?_⟩
      cases more with
      | nil => exact Or.inl rfl
      | cons next rest => exact Or.inr rfl
    | succ i =>
      obtain ⟨hwhole, before, after, hjoined, rfl, hbefore, hafter⟩ := ih hmore h
      have hne : more ≠ [] := by
        rintro rfl
        cases h
      refine ⟨hwhole, first ++ sep :: before, after, ?_, ?_, Or.inr ?_, hafter⟩
      · rw [intercalate_cons, flatMap_eq_intercalate hne, hjoined]
        simp
      · rw [List.count_append, List.count_eq_zero_of_not_mem hfirst, List.count_cons_self, Nat.zero_add]
      · rcases hbefore with rfl | hbefore
        · simp
        · simp [List.getLast?_append, List.getLast?_cons, hbefore]

/-- **Cutting numbers the pieces by the separators before them.** -/
theorem getElem?_split_eq_some_iff {i : Nat} {piece : Bytes} :
    (split sep s)[i]? = some piece ↔ PieceAt sep s i piece := by
  refine ⟨fun h => ?_, PieceAt.getElem?_split⟩
  obtain ⟨-, hjoined, hsep⟩ := split_eq_iff.mp (rfl : split sep s = _)
  have hpiece := pieceAt_intercalate hsep h
  rwa [hjoined] at hpiece

/-! ## Trimming -/

/-- A text is a body with bytes of a class around it, and none of them at either end of the body. -/
structure Trimmed (p : UInt8 → Bool) (s body : Bytes) : Prop where
  around : ∃ before after : Bytes,
    s = before ++ body ++ after ∧ (∀ b ∈ before, p b = true) ∧ ∀ b ∈ after, p b = true
  first : ∀ b ∈ body.head?, p b = false
  last : ∀ b ∈ body.getLast?, p b = false

theorem dropWhile_append_of_all (h : ∀ b ∈ before, p b = true) :
    (before ++ s).dropWhile p = s.dropWhile p := by
  induction before with
  | nil => rfl
  | cons b before ih =>
    obtain ⟨hb, hbefore⟩ := List.forall_mem_cons.mp h
    rw [List.cons_append, List.dropWhile_cons_of_pos hb, ih hbefore]

theorem dropWhile_eq_self (h : ∀ b ∈ s.head?, p b = false) : s.dropWhile p = s := by
  cases s with
  | nil => rfl
  | cons b s => exact List.dropWhile_cons_of_neg (by simp [h b rfl])

theorem head?_dropWhile (s : Bytes) : ∀ b ∈ (s.dropWhile p).head?, p b = false := by
  intro b hb
  have h := List.head?_dropWhile_not p s
  rw [Option.mem_def.mp hb] at h
  simpa using h

theorem trim_trimmed (p : UInt8 → Bool) (s : Bytes) : Trimmed p s (trim p s) := by
  have hs := List.takeWhile_append_dropWhile (p := p) (l := s)
  have ht := congrArg List.reverse
    (List.takeWhile_append_dropWhile (p := p) (l := (s.dropWhile p).reverse))
  rw [List.reverse_append, List.reverse_reverse] at ht
  have htrim : trim p s ++ ((s.dropWhile p).reverse.takeWhile p).reverse = s.dropWhile p := ht
  refine ⟨⟨s.takeWhile p, ((s.dropWhile p).reverse.takeWhile p).reverse, ?_, ?_, ?_⟩, ?_, ?_⟩
  · rw [List.append_assoc, htrim, hs]
  · intro b hb
    exact List.mem_takeWhile_imp hb
  · intro b hb
    exact List.mem_takeWhile_imp (List.mem_reverse.mp hb)
  · intro b hb
    apply head?_dropWhile s b
    rw [← htrim, List.head?_append, Option.mem_def.mp hb]
    rfl
  · intro b hb
    rw [trim, List.getLast?_reverse] at hb
    exact head?_dropWhile _ b hb

/-- **Trimming** takes away the bytes of a class at both ends, and only those. -/
theorem trim_eq_iff : trim p s = body ↔ Trimmed p s body := by
  constructor
  · rintro rfl
    exact trim_trimmed p s
  · rintro ⟨⟨before, after, rfl, hbefore, hafter⟩, hfirst, hlast⟩
    rw [trim, List.append_assoc, dropWhile_append_of_all hbefore]
    cases body with
    | nil =>
      have hnone : after.dropWhile p = [] := List.dropWhile_eq_nil_iff.mpr hafter
      rw [List.nil_append, hnone]
      rfl
    | cons b body =>
      rw [dropWhile_eq_self (s := b :: body ++ after) hfirst, List.reverse_append,
        dropWhile_append_of_all fun c hc => hafter c (List.mem_reverse.mp hc), dropWhile_eq_self,
        List.reverse_reverse]
      rwa [List.head?_reverse]

/-- Nothing is left of a text of that class alone. -/
theorem trim_eq_nil_iff : trim p s = [] ↔ ∀ b ∈ s, p b = true := by
  rw [trim_eq_iff]
  constructor
  · rintro ⟨⟨before, after, rfl, hbefore, hafter⟩, -, -⟩
    simpa [or_imp, forall_and] using ⟨hbefore, hafter⟩
  · intro h
    exact ⟨⟨s, [], by simp, h, nofun⟩, nofun, nofun⟩

/-! ## Pieces between the bytes of a class -/

variable {piece : Bytes}

/-- The first piece ends where a byte of the class follows. -/
theorem eq_takeWhile_iff : piece = s.takeWhile (fun b => !p b) ↔
    ∃ after, s = piece ++ after ∧ (∀ b ∈ piece, p b = false) ∧ ∀ b ∈ after.head?, p b = true := by
  constructor
  · rintro rfl
    refine ⟨s.dropWhile fun b => !p b, List.takeWhile_append_dropWhile.symm, ?_, ?_⟩
    · intro b hb
      simpa using List.mem_takeWhile_imp hb
    · intro b hb
      simpa using head?_dropWhile s b hb
  · rintro ⟨after, rfl, hpiece, hafter⟩
    rw [List.takeWhile_append_of_pos (by simpa using hpiece)]
    cases after with
    | nil => simp
    | cons b after => simp [hafter b rfl]

theorem exists_last_cons_iff {b : UInt8} : (∃ c ∈ (b :: before).getLast?, p c = true) ↔
    before = [] ∧ p b = true ∨ ∃ c ∈ before.getLast?, p c = true := by
  rw [List.getLast?_cons]
  cases h : before.getLast? with
  | none => simp [List.getLast?_eq_none_iff.mp h]
  | some c =>
    have hbefore : before ≠ [] := by
      rintro rfl
      cases h
    simp [hbefore]

/-- **The pieces between the bytes of a class** are the first, and every other one with a byte of the class
before it. -/
theorem exists_splitWhere_eq (p : UInt8 → Bool) (s : Bytes) :
    ∃ later, splitWhere p s = s.takeWhile (fun b => !p b) :: later ∧
      ∀ piece, piece ∈ later ↔ ∃ before after, s = before ++ piece ++ after ∧
        (∀ b ∈ piece, p b = false) ∧ (∃ b ∈ before.getLast?, p b = true) ∧
          ∀ b ∈ after.head?, p b = true := by
  induction s with
  | nil =>
    refine ⟨[], rfl, ?_⟩
    intro piece
    simp +contextual
  | cons b s ih =>
    obtain ⟨later, hsplit, hlater⟩ := ih
    rw [splitWhere, hsplit]
    by_cases hb : p b = true
    · refine ⟨s.takeWhile (fun b => !p b) :: later, by simp [hb], ?_⟩
      intro piece
      rw [List.mem_cons, hlater, eq_takeWhile_iff]
      constructor
      · rintro (⟨after, rfl, hpiece, hafter⟩ | ⟨before, after, rfl, hpiece, hlast, hafter⟩)
        · exact ⟨[b], after, rfl, hpiece, ⟨b, rfl, hb⟩, hafter⟩
        · exact ⟨b :: before, after, rfl, hpiece, exists_last_cons_iff.mpr (Or.inr hlast), hafter⟩
      · rintro ⟨before, after, hs, hpiece, hlast, hafter⟩
        cases before with
        | nil => simp at hlast
        | cons c before =>
          obtain ⟨rfl, rfl⟩ := List.cons.inj hs
          rcases exists_last_cons_iff.mp hlast with ⟨rfl, -⟩ | hlast
          · exact Or.inl ⟨after, rfl, hpiece, hafter⟩
          · exact Or.inr ⟨before, after, rfl, hpiece, hlast, hafter⟩
    · refine ⟨later, by simp [hb], ?_⟩
      intro piece
      rw [hlater]
      constructor
      · rintro ⟨before, after, rfl, hpiece, hlast, hafter⟩
        exact ⟨b :: before, after, rfl, hpiece, exists_last_cons_iff.mpr (Or.inr hlast), hafter⟩
      · rintro ⟨before, after, hs, hpiece, hlast, hafter⟩
        cases before with
        | nil => simp at hlast
        | cons c before =>
          obtain ⟨rfl, rfl⟩ := List.cons.inj hs
          rcases exists_last_cons_iff.mp hlast with ⟨-, hlast⟩ | hlast
          · exact absurd hlast hb
          · exact ⟨before, after, rfl, hpiece, hlast, hafter⟩

end Telemetry.Bytes

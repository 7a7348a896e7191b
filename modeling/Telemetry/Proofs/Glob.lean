import Mathlib.Data.List.Forall2
import Telemetry.Glob
import Telemetry.Proofs.Bytes.Cutting

/-!
# Globs and the texts they describe

`Fits` says byte by byte which texts a pattern describes, and `Decomposes` says the same of the pieces
between its stars.  Taking each piece at its first occurrence finds a decomposition if there is one
(`matchesPieces_iff`).  So does a matcher with one cursor in the pattern and one in the text that goes
back to the last star alone (`Cursors.run_iff`): whatever an earlier star could still take, the last one
can take as well.
-/

namespace Telemetry.Glob

open Bytes

/-! ## Descriptions -/

/-- A byte as patterns and texts are compared. -/
def foldCase (ignoreCase : Bool) (b : UInt8) : UInt8 := if ignoreCase then lowerByte b else b

/-- The pattern describes the text: a star any bytes, and every other byte one that folds alike. -/
inductive Fits (f : UInt8 → UInt8) : Bytes → Bytes → Prop
  | nil : Fits f [] []
  | literal {c b : UInt8} {pattern text : Bytes} (hc : c ≠ byte '*') (hsame : f c = f b)
      (h : Fits f pattern text) : Fits f (c :: pattern) (b :: text)
  | star {pattern text : Bytes} (gap : Bytes) (h : Fits f pattern text) :
      Fits f (byte '*' :: pattern) (gap ++ text)

/-- The text has these pieces in order, each of its length and folding to the same bytes, the first at the
start, the last at the end, and anything between two of them. -/
def Made (f : UInt8 → UInt8) (pieces : List Bytes) (text : Bytes) : Prop :=
  ∃ (first : Bytes) (later : List (Bytes × Bytes)),
    text = first ++ later.flatMap (fun (gap, piece) => gap ++ piece) ∧
      List.Forall₂ (List.Forall₂ fun c b => f c = f b) pieces (first :: later.map Prod.snd)

/-- The text is made of the pieces between the stars of the pattern. -/
def Decomposes (ignoreCase : Bool) (pattern text : Bytes) : Prop :=
  Made (foldCase ignoreCase) (split (byte '*') pattern) text

section

variable {f : UInt8 → UInt8} {c : UInt8} {pattern text rest gap piece seen : Bytes}
  {pieces more : List Bytes}

/-- Texts of the same bytes are the same text, once folded. -/
theorem forall₂_same_iff {s t : Bytes} :
    List.Forall₂ (fun c b => f c = f b) s t ↔ s.map f = t.map f := by
  rw [← List.forall₂_eq_eq_eq, List.forall₂_map_left_iff, List.forall₂_map_right_iff]

theorem forall₂_id_iff {s t : Bytes} : List.Forall₂ (fun c b => id c = id b) s t ↔ s = t := by
  rw [forall₂_same_iff, List.map_id, List.map_id]

namespace Fits

theorem nil_iff : Fits f [] text ↔ text = [] := by
  constructor
  · rintro ⟨⟩
    rfl
  · rintro rfl
    exact .nil

theorem literal_iff {b : UInt8} (hc : c ≠ byte '*') :
    Fits f (c :: pattern) (b :: text) ↔ f c = f b ∧ Fits f pattern text := by
  constructor
  · intro h
    generalize htext : b :: text = whole at h
    cases h with
    | literal _ hsame h =>
      obtain ⟨rfl, rfl⟩ := List.cons.inj htext
      exact ⟨hsame, h⟩
    | star => exact absurd rfl hc
  · rintro ⟨hsame, h⟩
    exact .literal hc hsame h

/-- A star leaves any end of the text to the rest of the pattern. -/
theorem star_iff : Fits f (byte '*' :: pattern) text ↔
    ∃ rest, rest <:+ text ∧ Fits f pattern rest := by
  constructor
  · intro h
    cases h with
    | literal hc => exact absurd rfl hc
    | star gap h => exact ⟨_, List.suffix_append _ _, h⟩
  · rintro ⟨rest, ⟨gap, rfl⟩, h⟩
    exact .star gap h

/-- Stars alone can stand for nothing. -/
theorem text_nil_iff : Fits f pattern [] ↔ pattern.all (· == byte '*') = true := by
  induction pattern with
  | nil => simp [nil_iff]
  | cons c pattern ih =>
    rw [List.all_cons, Bool.and_eq_true, beq_iff_eq, ← ih]
    by_cases hc : c = byte '*'
    · subst hc
      simp [star_iff]
    · refine iff_of_false ?_ (fun h => hc h.1)
      intro h
      generalize htext : ([] : Bytes) = text at h
      cases h with
      | literal => cases htext
      | star => exact hc rfl

/-- A start without stars is as long as what it describes. -/
theorem append_iff (hseen : byte '*' ∉ seen) : Fits f (seen ++ pattern) text ↔
    ∃ read rest, text = read ++ rest ∧ List.Forall₂ (fun c b => f c = f b) seen read ∧
      Fits f pattern rest := by
  induction seen generalizing text with
  | nil => simp
  | cons c seen ih =>
    obtain ⟨hc, hseen⟩ := not_or.mp (mt List.mem_cons.mpr hseen)
    cases text with
    | nil => simp [text_nil_iff, Ne.symm hc]
    | cons b text =>
      rw [List.cons_append, literal_iff (Ne.symm hc), ih hseen]
      constructor
      · rintro ⟨hsame, read, rest, rfl, hread, h⟩
        exact ⟨b :: read, rest, rfl, .cons hsame hread, h⟩
      · rintro ⟨read, rest, htext, hread, h⟩
        cases hread with
        | cons hsame hread =>
          obtain ⟨rfl, rfl⟩ := List.cons.inj htext
          exact ⟨hsame, _, rest, rfl, hread, h⟩

/-- Folding the pattern and the text first comes to the same. -/
theorem map_iff (hf : ∀ c, f c = byte '*' ↔ c = byte '*') :
    Fits id (pattern.map f) (text.map f) ↔ Fits f pattern text := by
  induction pattern generalizing text with
  | nil => simp [nil_iff]
  | cons c pattern ih =>
    by_cases hc : c = byte '*'
    · subst hc
      rw [List.map_cons, (hf _).mpr rfl, star_iff, star_iff]
      constructor
      · rintro ⟨rest, ⟨gap, hgap⟩, h⟩
        obtain ⟨gap, rest, rfl, -, rfl⟩ := List.append_eq_map_iff.mp hgap
        exact ⟨rest, List.suffix_append _ _, ih.mp h⟩
      · rintro ⟨rest, hrest, h⟩
        exact ⟨rest.map f, hrest.map f, ih.mpr h⟩
    · cases text with
      | nil => simp [text_nil_iff, hc, hf]
      | cons b text =>
        rw [List.map_cons, List.map_cons, literal_iff (mt (hf c).mp hc), literal_iff hc, ih]
        rfl

end Fits

/-! ## Pieces -/

theorem split_star (pattern : Bytes) :
    split (byte '*') (byte '*' :: pattern) = [] :: split (byte '*') pattern := by
  rw [split, splitWhere, if_pos (beq_self_eq_true _)]
  rfl

theorem split_byte (hc : c ≠ byte '*') (h : split (byte '*') pattern = piece :: more) :
    split (byte '*') (c :: pattern) = (c :: piece) :: more := by
  rw [split] at h
  rw [split, splitWhere, if_neg (by simpa using hc), h]

theorem made_single : Made f [piece] text ↔ List.Forall₂ (fun c b => f c = f b) piece text := by
  constructor
  · rintro ⟨first, later, rfl, h⟩
    obtain ⟨hfirst, hlater⟩ := List.forall₂_cons.mp h
    obtain rfl : later = [] := by simpa using hlater
    simpa using hfirst
  · intro h
    exact ⟨text, [], by simp, .cons h .nil⟩

/-- Behind the first piece anything may stand before the others. -/
theorem made_cons (hmore : more ≠ []) : Made f (piece :: more) text ↔
    ∃ first gap rest, text = first ++ (gap ++ rest) ∧
      List.Forall₂ (fun c b => f c = f b) piece first ∧ Made f more rest := by
  constructor
  · rintro ⟨first, later, rfl, h⟩
    obtain ⟨hfirst, hlater⟩ := List.forall₂_cons.mp h
    cases later with
    | nil => exact absurd (List.forall₂_nil_right_iff.mp hlater) hmore
    | cons next later =>
      refine ⟨first, next.1, next.2 ++ later.flatMap fun (gap, piece) => gap ++ piece, ?_, hfirst,
        next.2, later, rfl, hlater⟩
      rw [List.flatMap_cons, List.append_assoc]
  · rintro ⟨first, gap, rest, rfl, hfirst, second, later, rfl, h⟩
    refine ⟨first, (gap, second) :: later, ?_, .cons hfirst h⟩
    rw [List.flatMap_cons, List.append_assoc]

/-- **A pattern describes what its pieces make up.** -/
theorem fits_iff_made : Fits f pattern text ↔ Made f (split (byte '*') pattern) text := by
  induction pattern generalizing text with
  | nil =>
    change _ ↔ Made f [[]] text
    rw [Fits.nil_iff, made_single, List.forall₂_nil_left_iff]
  | cons c pattern ih =>
    by_cases hc : c = byte '*'
    · subst hc
      rw [split_star, made_cons (split_ne_nil _ _), Fits.star_iff]
      constructor
      · rintro ⟨rest, ⟨gap, rfl⟩, h⟩
        exact ⟨[], gap, rest, rfl, .nil, ih.mp h⟩
      · rintro ⟨first, gap, rest, rfl, hfirst, h⟩
        obtain rfl := List.forall₂_nil_left_iff.mp hfirst
        exact ⟨rest, List.suffix_append _ _, ih.mpr h⟩
    · obtain ⟨piece, more, hsplit⟩ := List.exists_cons_of_ne_nil (split_ne_nil (byte '*') pattern)
      rw [hsplit] at ih
      rw [split_byte hc hsplit]
      constructor
      · intro h
        cases h with
        | star => exact absurd rfl hc
        | @literal _ b _ text _ hsame h =>
          obtain ⟨first, later, rfl, hmade⟩ := ih.mp h
          obtain ⟨hfirst, hlater⟩ := List.forall₂_cons.mp hmade
          exact ⟨b :: first, later, rfl, .cons (.cons hsame hfirst) hlater⟩
      · rintro ⟨first, later, rfl, h⟩
        obtain ⟨hfirst, hlater⟩ := List.forall₂_cons.mp h
        cases hfirst with
        | cons hsame hfirst => exact .literal hc hsame (ih.mpr ⟨_, later, rfl, .cons hfirst hlater⟩)

/-! ## First occurrences -/

theorem afterFirst?_sound (h : afterFirst? piece text = some rest) :
    ∃ gap, text = gap ++ (piece ++ rest) := by
  fun_induction afterFirst? piece text with
  | case1 text behind hstart =>
    obtain rfl := Option.some.inj h
    rw [afterStart?_eq_some_iff.mp hstart]
    exact ⟨[], rfl⟩
  | case2 => cases h
  | case3 b text _ ih =>
    obtain ⟨gap, hgap⟩ := ih h
    exact ⟨b :: gap, congrArg (b :: ·) hgap⟩

/-- Behind the first occurrence stands what stands behind any other. -/
theorem afterFirst?_first (gap piece rest : Bytes) :
    ∃ behind, afterFirst? piece (gap ++ (piece ++ rest)) = some behind ∧ rest <:+ behind := by
  induction gap with
  | nil =>
    have hstart : afterStart? piece (piece ++ rest) = some rest := afterStart?_eq_some_iff.mpr rfl
    refine ⟨rest, ?_, List.suffix_rfl⟩
    rw [List.nil_append, afterFirst?.eq_def, hstart]
  | cons b gap ih =>
    obtain ⟨behind, hbehind, hrest⟩ := ih
    rw [List.cons_append, afterFirst?.eq_def]
    cases hstart : afterStart? piece (b :: (gap ++ (piece ++ rest))) with
    | none => exact ⟨behind, hbehind, hrest⟩
    | some behind' =>
      refine ⟨behind', rfl, ?_⟩
      have htext : b :: (gap ++ (piece ++ rest)) = piece ++ behind' := afterStart?_eq_some_iff.mp hstart
      -- both are ends of the text, and the one behind the first occurrence is the longer
      have hends : rest <:+ piece ++ behind' := ⟨b :: (gap ++ piece), by simp [← htext]⟩
      refine List.suffix_of_suffix_length_le hends (List.suffix_append _ _) ?_
      have hlength := congrArg List.length htext
      simp only [List.length_cons, List.length_append] at hlength
      omega

/-- Pieces behind a star are found if they can be. -/
theorem endsWith_iff (h : pieces ≠ []) :
    endsWith pieces text = true ↔ ∃ rest, rest <:+ text ∧ Made id pieces rest := by
  fun_induction endsWith pieces text with
  | case1 => exact absurd rfl h
  | case2 last text =>
    rw [List.isSuffixOf_iff_suffix]
    constructor
    · intro hlast
      exact ⟨last, hlast, made_single.mpr (forall₂_id_iff.mpr rfl)⟩
    · rintro ⟨rest, hrest, hmade⟩
      rwa [forall₂_id_iff.mp (made_single.mp hmade)]
  | case3 piece more text hmore rest hfirst ih =>
    have hmore : more ≠ [] := by simpa using hmore
    rw [ih hmore]
    constructor
    · rintro ⟨tail, ⟨gap, rfl⟩, hmade⟩
      obtain ⟨before, rfl⟩ := afterFirst?_sound hfirst
      refine ⟨_, List.suffix_append _ _, (made_cons hmore).mpr ?_⟩
      exact ⟨piece, gap, tail, rfl, forall₂_id_iff.mpr rfl, hmade⟩
    · rintro ⟨_, ⟨before, rfl⟩, hmade⟩
      obtain ⟨first, gap, tail, rfl, hpiece, htail⟩ := (made_cons hmore).mp hmade
      obtain rfl := forall₂_id_iff.mp hpiece
      obtain ⟨behind, hbehind, hsuffix⟩ := afterFirst?_first before piece (gap ++ tail)
      obtain rfl := Option.some.inj (hfirst.symm.trans hbehind)
      exact ⟨tail, (List.suffix_append gap tail).trans hsuffix, htail⟩
  | case4 piece more text hmore hnone =>
    have hmore : more ≠ [] := by simpa using hmore
    refine iff_of_false Bool.false_ne_true ?_
    rintro ⟨_, ⟨before, rfl⟩, hmade⟩
    obtain ⟨first, gap, tail, rfl, hpiece, -⟩ := (made_cons hmore).mp hmade
    obtain rfl := forall₂_id_iff.mp hpiece
    obtain ⟨behind, hbehind, -⟩ := afterFirst?_first before piece (gap ++ tail)
    rw [hnone] at hbehind
    cases hbehind

theorem matchesPieces_iff (h : pieces ≠ []) :
    matchesPieces pieces text = true ↔ Made id pieces text := by
  fun_cases matchesPieces pieces text with
  | case1 => exact absurd rfl h
  | case2 whole =>
    rw [made_single, forall₂_id_iff, beq_iff_eq]
  | case3 first more _ hmore rest hstart =>
    obtain rfl := afterStart?_eq_some_iff.mp hstart
    rw [endsWith_iff hmore, made_cons hmore]
    constructor
    · rintro ⟨tail, ⟨gap, rfl⟩, hmade⟩
      exact ⟨first, gap, tail, rfl, forall₂_id_iff.mpr rfl, hmade⟩
    · rintro ⟨first', gap, tail, htext, hfirst, hmade⟩
      obtain rfl := forall₂_id_iff.mp hfirst
      obtain rfl := List.append_cancel_left htext
      exact ⟨tail, List.suffix_append _ _, hmade⟩
  | case4 first more _ hmore hnone =>
    refine iff_of_false Bool.false_ne_true ?_
    intro hmade
    obtain ⟨first', gap, tail, rfl, hfirst, -⟩ := (made_cons hmore).mp hmade
    obtain rfl := forall₂_id_iff.mp hfirst
    rw [afterStart?_eq_some_iff.mpr rfl] at hnone
    cases hnone

end

/-! ## Case -/

theorem lowerByte_eq_star (b : UInt8) : lowerByte b = byte '*' ↔ b = byte '*' := by
  rw [lowerByte]
  split
  · next hupper =>
    obtain ⟨hfirst, hlast⟩ := Bool.and_eq_true_iff.mp hupper
    have hlow : 65 ≤ b.toNat := UInt8.le_iff_toNat_le.mp (of_decide_eq_true hfirst)
    have hhigh : b.toNat ≤ 90 := UInt8.le_iff_toNat_le.mp (of_decide_eq_true hlast)
    refine iff_of_false ?_ ?_
    · intro h
      have h := congrArg UInt8.toNat h
      rw [UInt8.toNat_add] at h
      change (b.toNat + 32) % 256 = 42 at h
      omega
    · rintro rfl
      exact absurd hlow (by decide)
  · exact Iff.rfl

theorem foldCase_eq_star (ignoreCase : Bool) (b : UInt8) :
    foldCase ignoreCase b = byte '*' ↔ b = byte '*' := by
  cases ignoreCase
  · exact Iff.rfl
  · exact lowerByte_eq_star b

theorem matchesText_eq (pattern text : Bytes) (ignoreCase : Bool) :
    matchesText pattern text ignoreCase =
      matchesPieces (split (byte '*') (pattern.map (foldCase ignoreCase)))
        (text.map (foldCase ignoreCase)) := by
  cases ignoreCase
  · change matchesPieces _ _ = matchesPieces (split _ (pattern.map id)) (text.map id)
    rw [List.map_id, List.map_id]
  · rfl

theorem matchesText_iff_fits (pattern text : Bytes) (ignoreCase : Bool) :
    matchesText pattern text ignoreCase = true ↔ Fits (foldCase ignoreCase) pattern text := by
  rw [matchesText_eq, matchesPieces_iff (split_ne_nil _ _), ← fits_iff_made,
    Fits.map_iff (foldCase_eq_star ignoreCase)]

/-! ## Going back to the last star -/

/-- A matcher that reads both texts from left to right: what is left of the pattern and of the text, and
what was left of them when the last star began to take what it takes now.  If the bytes differ, the star
takes one byte more. -/
structure Cursors where
  pattern : Bytes
  text : Bytes
  star : Option (Bytes × Bytes)
  behind : ∀ s ∈ star, text.length ≤ s.2.length

namespace Cursors

/-- At the start of both, with no star yet. -/
def start (pattern text : Bytes) : Cursors := ⟨pattern, text, none, nofun⟩

/-- Behind a star that leaves this text to the rest of the pattern. -/
def pass (pattern text : Bytes) : Cursors := ⟨pattern, text, some (pattern, text), by simp⟩

/-- Back to the last star, if there was one. -/
def back (c : Cursors) : Bool ⊕ Cursors :=
  match c.star with
  | none => .inl false
  | some (pattern, text) => .inr (pass pattern text.tail)

/-- The answer or the next place. -/
def step (f : UInt8 → UInt8) (c : Cursors) : Bool ⊕ Cursors :=
  match c with
  | ⟨pattern, [], _, _⟩ => .inl (pattern.all (· == byte '*'))
  | ⟨[], b :: text, star, behind⟩ => back ⟨[], b :: text, star, behind⟩
  | ⟨c :: pattern, b :: text, star, behind⟩ =>
    if c = byte '*' then .inr (pass pattern (b :: text))
    else if f c = f b then .inr ⟨pattern, text, star, fun s hs => Nat.le_of_succ_le (behind s hs)⟩
    else back ⟨c :: pattern, b :: text, star, behind⟩

/-- How much text the last star can still take; without a star more than there is. -/
def room (c : Cursors) : Nat :=
  match c.star with
  | none => c.text.length + 1
  | some (_, text) => text.length

/-- The text cursor goes back, but never to where it went back to before. -/
theorem step_decreases {f : UInt8 → UInt8} {c next : Cursors} (h : c.step f = .inr next) :
    Prod.Lex (· < ·) (Prod.Lex (· < ·) (· < ·)) (next.room, next.text.length, next.pattern.length)
      (c.room, c.text.length, c.pattern.length) := by
  have hback : ∀ c : Cursors, c.text ≠ [] → c.back = .inr next → next.room < c.room := by
    intro c htext h
    obtain ⟨pattern, text, star, behind⟩ := c
    cases star with
    | none => cases h
    | some s =>
      obtain rfl := Sum.inr.inj h
      have hpos : 0 < s.2.length := (List.length_pos_of_ne_nil htext).trans_le (behind s rfl)
      change s.2.tail.length < s.2.length
      rw [List.length_tail]
      exact Nat.sub_lt hpos Nat.one_pos
  obtain ⟨pattern, text, star, behind⟩ := c
  cases text with
  | nil => cases h
  | cons b text =>
    cases pattern with
    | nil => exact .left _ _ (hback _ (List.cons_ne_nil _ _) h)
    | cons c pattern =>
      rw [step] at h
      split at h
      · obtain rfl := Sum.inr.inj h
        cases star with
        | none => exact .left _ _ (Nat.lt_succ_self _)
        | some s =>
          rcases (behind s rfl).lt_or_eq with hlt | heq
          · exact .left _ _ hlt
          · change Prod.Lex _ _ ((b :: text).length, _, _) (s.2.length, _, _)
            rw [← heq]
            exact .right _ (.right _ (Nat.lt_succ_self _))
      · split at h
        · obtain rfl := Sum.inr.inj h
          cases star with
          | none => exact .left _ _ (Nat.lt_succ_self _)
          | some s => exact .right _ (.left _ _ (Nat.lt_succ_self _))
        · exact .left _ _ (hback _ (List.cons_ne_nil _ _) h)

/-- The answer of the matcher. -/
def run (f : UInt8 → UInt8) (c : Cursors) : Bool :=
  match _h : c.step f with
  | .inl answer => answer
  | .inr next => run f next
termination_by (c.room, c.text.length, c.pattern.length)
decreasing_by exact step_decreases _h

/-! ### What the cursors stand for -/

variable {f : UInt8 → UInt8} {c next : Cursors}

/-- The text can be described from here on, or with more taken by the last star. -/
def Accepts (f : UInt8 → UInt8) (c : Cursors) : Prop :=
  Fits f c.pattern c.text ∨ ∃ s ∈ c.star, ∃ rest, rest <:+ s.2.tail ∧ Fits f s.1 rest

/-- Since the last star the bytes of the pattern were those of the text. -/
def Consistent (f : UInt8 → UInt8) (c : Cursors) : Prop :=
  ∀ s ∈ c.star, ∃ seen read, s.1 = seen ++ c.pattern ∧ s.2 = read ++ c.text ∧
    byte '*' ∉ seen ∧ List.Forall₂ (fun c b => f c = f b) seen read

theorem consistent_pass (f : UInt8 → UInt8) (pattern text : Bytes) :
    (pass pattern text).Consistent f := by
  rintro s ⟨⟩
  exact ⟨[], [], rfl, rfl, List.not_mem_nil, .nil⟩

theorem accepts_pass {pattern text : Bytes} :
    (pass pattern text).Accepts f ↔ ∃ rest, rest <:+ text ∧ Fits f pattern rest := by
  constructor
  · rintro (h | ⟨s, ⟨⟩, rest, hrest, h⟩)
    · exact ⟨text, List.suffix_rfl, h⟩
    · exact ⟨rest, hrest.trans (List.tail_suffix text), h⟩
  · rintro ⟨rest, hrest, h⟩
    cases text with
    | nil => exact Or.inl (List.suffix_nil.mp hrest ▸ h)
    | cons b text =>
      rcases List.suffix_cons_iff.mp hrest with rfl | hrest
      · exact Or.inl h
      · exact Or.inr ⟨_, rfl, rest, hrest, h⟩

/-- What the last star could still take is left to what stands behind it now. -/
theorem Consistent.later (h : c.Consistent f) {s : Bytes × Bytes} (hs : s ∈ c.star) {rest : Bytes}
    (hrest : rest <:+ s.2) (hfits : Fits f s.1 rest) :
    ∃ later, later <:+ c.text ∧ Fits f c.pattern later := by
  obtain ⟨seen, read, hpattern, htext, hseen, hread⟩ := h s hs
  rw [hpattern, Fits.append_iff hseen] at hfits
  obtain ⟨read', later, rfl, hread', hlater⟩ := hfits
  refine ⟨later, ?_, hlater⟩
  -- both starts of the text are as long as what was read of the pattern
  have hlength : read'.length = read.length := hread'.length_eq.symm.trans hread.length_eq
  rw [htext] at hrest
  refine List.suffix_of_suffix_length_le ((List.suffix_append _ _).trans hrest)
    (List.suffix_append _ _) ?_
  have hle := hrest.length_le
  simp only [List.length_append] at hle
  omega

/-- Going back gives up the bytes that differ and nothing else. -/
theorem accepts_back (hfits : ¬ Fits f c.pattern c.text) :
    (∀ answer, c.back = .inl answer → (answer = true ↔ c.Accepts f)) ∧
      ∀ next, c.back = .inr next → next.Consistent f ∧ (next.Accepts f ↔ c.Accepts f) := by
  rw [Accepts, or_iff_right hfits, back]
  cases hstar : c.star with
  | none =>
    refine ⟨?_, nofun⟩
    rintro _ ⟨⟩
    exact iff_of_false Bool.false_ne_true (by simp)
  | some s =>
    refine ⟨nofun, ?_⟩
    rintro _ ⟨⟩
    refine ⟨consistent_pass f _ _, accepts_pass.trans ?_⟩
    simp

/-- **One step** of the matcher answers rightly or keeps what it stands for. -/
theorem accepts_step (h : c.Consistent f) :
    (∀ answer, c.step f = .inl answer → (answer = true ↔ c.Accepts f)) ∧
      ∀ next, c.step f = .inr next → next.Consistent f ∧ (next.Accepts f ↔ c.Accepts f) := by
  have hlater := @Consistent.later f c h
  obtain ⟨pattern, text, star, behind⟩ := c
  cases text with
  | nil =>
    refine ⟨?_, nofun⟩
    rintro _ ⟨⟩
    rw [← Fits.text_nil_iff, Accepts]
    refine ⟨Or.inl, ?_⟩
    rintro (h | ⟨s, hs, rest, hrest, h⟩)
    · exact h
    · obtain ⟨later, hlater, h⟩ := hlater hs (hrest.trans (List.tail_suffix s.2)) h
      exact List.suffix_nil.mp hlater ▸ h
  | cons b text =>
    cases pattern with
    | nil => exact accepts_back (fun h => List.cons_ne_nil _ _ (Fits.nil_iff.mp h))
    | cons c pattern =>
      rw [step]
      split
      · next hc =>
        refine ⟨nofun, ?_⟩
        rintro _ ⟨⟩
        refine ⟨consistent_pass f _ _, ?_⟩
        subst hc
        rw [accepts_pass, ← Fits.star_iff, Accepts]
        refine ⟨Or.inl, ?_⟩
        -- an earlier star could take no more than this one can
        rintro (h | ⟨s, hs, rest, hrest, h⟩)
        · exact h
        · obtain ⟨later, hsuffix, h⟩ := hlater hs (hrest.trans (List.tail_suffix s.2)) h
          obtain ⟨rest', hrest', h⟩ := Fits.star_iff.mp h
          exact Fits.star_iff.mpr ⟨rest', hrest'.trans hsuffix, h⟩
      · next hc =>
        split
        · next hsame =>
          refine ⟨nofun, ?_⟩
          rintro _ ⟨⟩
          refine ⟨?_, ?_⟩
          · intro s hs
            obtain ⟨seen, read, hpattern, htext, hseen, hread⟩ := h s hs
            refine ⟨seen ++ [c], read ++ [b], by simpa using hpattern, by simpa using htext, ?_,
              List.rel_append hread (.cons hsame .nil)⟩
            simpa [hseen] using Ne.symm hc
          · rw [Accepts, Accepts, Fits.literal_iff hc, and_iff_right hsame]
        · next hsame => exact accepts_back (fun h => hsame ((Fits.literal_iff hc).mp h).1)

/-- **A whole run** answers what the place it begins at stands for. -/
theorem run_iff (h : c.Consistent f) : c.run f = true ↔ c.Accepts f := by
  fun_induction run f c with
  | case1 c answer hstep => exact (accepts_step h).1 answer hstep
  | case2 c next hstep ih =>
    obtain ⟨hnext, haccepts⟩ := (accepts_step h).2 next hstep
    exact (ih hnext).trans haccepts

/-- Retrying the last star alone is enough. -/
theorem run_start_iff (f : UInt8 → UInt8) (pattern text : Bytes) :
    (start pattern text).run f = true ↔ Fits f pattern text := by
  have hconsistent : (start pattern text).Consistent f := by
    rintro s ⟨⟩
  rw [run_iff hconsistent, Accepts]
  simp [start]

end Cursors

/-! ## The matcher -/

/-- **A glob describes exactly the texts that its pieces decompose**, with case folded if asked for; a glob
without stars describes itself.  Going back to the last star alone and taking each piece at its first
occurrence give the same answers. -/
theorem matchesText_exact (pattern text : Bytes) (ignoreCase : Bool) :
    (matchesText pattern text ignoreCase = true ↔ Decomposes ignoreCase pattern text) ∧
    (byte '*' ∉ pattern → (matchesText pattern text ignoreCase = true ↔
      pattern.map (foldCase ignoreCase) = text.map (foldCase ignoreCase))) ∧
    (Cursors.start pattern text).run (foldCase ignoreCase) = matchesText pattern text ignoreCase := by
  have hfits := matchesText_iff_fits pattern text ignoreCase
  refine ⟨hfits.trans fits_iff_made, ?_, ?_⟩
  · intro hstar
    have hsplit : split (byte '*') pattern = [pattern] :=
      split_eq_iff.mpr ⟨List.cons_ne_nil _ _, by simp [List.intercalate], by simpa using hstar⟩
    rw [hfits, fits_iff_made, hsplit, made_single, forall₂_same_iff]
  · rw [Bool.eq_iff_iff, Cursors.run_start_iff, hfits]

/-- A glob without stars, in capital letters, and a text in small ones. -/
theorem matchesText_exact_no_star : byte '*' ∉ ascii "Prod@1.2" ∧
    matchesText (ascii "Prod@1.2") (ascii "pROD@1.2") true = true ∧
    matchesText (ascii "Prod@1.2") (ascii "pROD@1.2") false = false := by
  have hstar : byte '*' ∉ ascii "Prod@1.2" := by decide
  refine ⟨hstar, ((matchesText_exact _ _ true).2.1 hstar).mpr (by decide), ?_⟩
  rw [← Bool.not_eq_true, (matchesText_exact _ _ false).2.1 hstar]
  decide

end Telemetry.Glob

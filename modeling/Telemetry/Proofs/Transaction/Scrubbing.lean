import Mathlib.Data.List.TakeWhile
import Telemetry.Transaction.Name

/-!
# Scrubbing names by segment

A name has one reading as segments with a separator between two of them (`segments_eq_iff`).  Scrubbing
replaces the segments of that reading and nothing else (`cut_scrub`), so it goes through a name from
separator to separator (`scrub_append`) and does nothing more to a name that was scrubbed.
-/

namespace Telemetry.TransactionName

open Bytes

variable {name first other segment : Bytes} {more : List (UInt8 × Bytes)} {b separator : UInt8}

/-! ## Readings of a name -/

/-- The name consists of these segments, with separators between them and nowhere else. -/
structure Cut (name first : Bytes) (more : List (UInt8 × Bytes)) : Prop where
  joined : join first more = name
  first : ∀ b ∈ first, isSeparator b = false
  separators : ∀ e ∈ more, isSeparator e.1 = true
  later : ∀ e ∈ more, ∀ b ∈ e.2, isSeparator b = false

theorem segments_separator (h : isSeparator b = true) (rest : Bytes) :
    segments (b :: rest) = ([], (b, (segments rest).1) :: (segments rest).2) := by
  rw [segments]
  exact if_pos h

theorem segments_byte (h : isSeparator b = false) (rest : Bytes) :
    segments (b :: rest) = (b :: (segments rest).1, (segments rest).2) := by
  rw [segments]
  exact if_neg (by simp [h])

theorem cut_segments (name : Bytes) : Cut name (segments name).1 (segments name).2 := by
  induction name with
  | nil => exact ⟨rfl, nofun, nofun, nofun⟩
  | cons b rest ih =>
    obtain ⟨hjoined, hfirst, hseparators, hlater⟩ := ih
    cases hb : isSeparator b with
    | true =>
      rw [segments_separator hb]
      refine ⟨congrArg (b :: ·) hjoined, nofun, ?_, ?_⟩
      · exact List.forall_mem_cons.mpr ⟨hb, hseparators⟩
      · exact List.forall_mem_cons.mpr ⟨hfirst, hlater⟩
    | false =>
      rw [segments_byte hb]
      exact ⟨congrArg (b :: ·) hjoined, List.forall_mem_cons.mpr ⟨hb, hfirst⟩, hseparators, hlater⟩

/-- What stands before the first separator is the first segment. -/
theorem segments_append (h : ∀ b ∈ segment, isSeparator b = false) (rest : Bytes) :
    segments (segment ++ rest) = (segment ++ (segments rest).1, (segments rest).2) := by
  induction segment with
  | nil => rfl
  | cons b segment ih =>
    obtain ⟨hb, hsegment⟩ := List.forall_mem_cons.mp h
    rw [List.cons_append, segments_byte hb, ih hsegment]
    rfl

/-- **The reading of a name as segments** is the only one. -/
theorem segments_eq_iff : segments name = (first, more) ↔ Cut name first more := by
  constructor
  · intro h
    have hcut := cut_segments name
    rwa [h] at hcut
  · rintro ⟨rfl, hfirst, hseparators, hlater⟩
    induction more generalizing first with
    | nil =>
      have hnil : segments [] = ([], []) := rfl
      rw [join, List.flatMap_nil, segments_append hfirst, hnil, List.append_nil]
    | cons e more ih =>
      obtain ⟨he, hseparators⟩ := List.forall_mem_cons.mp hseparators
      obtain ⟨hsegment, hlater⟩ := List.forall_mem_cons.mp hlater
      have hrest := ih hsegment hseparators hlater
      have hjoin : join first (e :: more) = first ++ e.1 :: join e.2 more := rfl
      rw [hjoin, segments_append hfirst, segments_separator he, hrest, List.append_nil]

theorem Cut.filter (h : Cut name first more) : name.filter isSeparator = more.map Prod.fst := by
  obtain ⟨rfl, hfirst, hseparators, hlater⟩ := h
  have hnone : ∀ {s : Bytes}, (∀ b ∈ s, isSeparator b = false) → s.filter isSeparator = [] := by
    intro s hs
    exact List.filter_eq_nil_iff.mpr fun b hb => by simp [hs b hb]
  rw [join, List.filter_append, hnone hfirst, List.nil_append]
  induction more with
  | nil => rfl
  | cons e more ih =>
    obtain ⟨he, hseparators⟩ := List.forall_mem_cons.mp hseparators
    obtain ⟨hsegment, hlater⟩ := List.forall_mem_cons.mp hlater
    rw [List.flatMap_cons, List.filter_append, List.filter_cons_of_pos he, hnone hsegment,
      ih hseparators hlater]
    rfl

/-- Two readings with a separator between them are one. -/
theorem Cut.append {otherFirst : Bytes} {otherMore : List (UInt8 × Bytes)} (h : Cut name first more)
    (hseparator : isSeparator separator = true) (hother : Cut other otherFirst otherMore) :
    Cut (name ++ separator :: other) first (more ++ (separator, otherFirst) :: otherMore) := by
  obtain ⟨rfl, hfirst, hseparators, hlater⟩ := h
  obtain ⟨rfl, hfirst', hseparators', hlater'⟩ := hother
  refine ⟨by simp [join], hfirst, ?_, ?_⟩
  · exact List.forall_mem_append.mpr
      ⟨hseparators, List.forall_mem_cons.mpr ⟨hseparator, hseparators'⟩⟩
  · exact List.forall_mem_append.mpr ⟨hlater, List.forall_mem_cons.mpr ⟨hfirst', hlater'⟩⟩

/-! ## Segments -/

/-- A segment is kept byte for byte or becomes a star. -/
theorem scrubSegment_cases (segment : Bytes) :
    scrubSegment segment = segment ∨ scrubSegment segment = [byte '*'] := by
  rw [scrubSegment]
  split
  · exact Or.inr rfl
  · exact Or.inl rfl

theorem scrubSegment_star : scrubSegment [byte '*'] = [byte '*'] := by
  decide

/-- A kept segment is kept again, and a star is no variable segment. -/
theorem scrubSegment_scrubSegment (segment : Bytes) :
    scrubSegment (scrubSegment segment) = scrubSegment segment := by
  rcases scrubSegment_cases segment with h | h
  · rw [h, h]
  · rw [h, scrubSegment_star]

theorem separator_not_mem_scrubSegment (h : ∀ b ∈ segment, isSeparator b = false) :
    ∀ b ∈ scrubSegment segment, isSeparator b = false := by
  rcases scrubSegment_cases segment with hkept | hstar
  · rwa [hkept]
  · rw [hstar]
    intro b hb
    obtain rfl := List.mem_singleton.mp hb
    decide

/-! ## Names -/

/-- The later segments scrubbed, each behind its separator. -/
def scrubLater (more : List (UInt8 × Bytes)) : List (UInt8 × Bytes) :=
  more.map fun (separator, segment) => (separator, scrubSegment segment)

/-- **Scrubbing a name scrubs its segments.** -/
theorem cut_scrub (h : Cut name first more) :
    Cut (scrub name) (scrubSegment first) (scrubLater more) := by
  have hsegments := segments_eq_iff.mpr h
  obtain ⟨-, hfirst, hseparators, hlater⟩ := h
  refine ⟨?_, separator_not_mem_scrubSegment hfirst, ?_, ?_⟩
  · rw [scrub, hsegments]
    rfl
  · exact List.forall_mem_map.mpr hseparators
  · exact List.forall_mem_map.mpr fun e he => separator_not_mem_scrubSegment (hlater e he)

theorem scrub_of_cut (h : Cut name first more) :
    scrub name = join (scrubSegment first) (scrubLater more) := (cut_scrub h).joined.symm

/-- Scrubbing goes through a name from separator to separator. -/
theorem scrub_append (hseparator : isSeparator separator = true) (name other : Bytes) :
    scrub (name ++ separator :: other) = scrub name ++ separator :: scrub other := by
  have hname := cut_segments name
  have hother := cut_segments other
  rw [scrub_of_cut (hname.append hseparator hother), scrub_of_cut hname, scrub_of_cut hother]
  simp [join, scrubLater]

theorem scrub_segment (h : ∀ b ∈ segment, isSeparator b = false) :
    scrub segment = scrubSegment segment := by
  have hcut : Cut segment segment [] := ⟨List.append_nil _, h, nofun, nofun⟩
  rw [scrub_of_cut hcut]
  exact List.append_nil _

theorem scrub_scrub (name : Bytes) : scrub (scrub name) = scrub name := by
  have hcut := cut_scrub (cut_segments name)
  have hlater : scrubLater (scrubLater (segments name).2) = scrubLater (segments name).2 := by
    rw [scrubLater, scrubLater, List.map_map]
    exact List.map_congr_left fun e _ => Prod.ext rfl (scrubSegment_scrubSegment e.2)
  rw [scrub_of_cut hcut, scrubSegment_scrubSegment, hlater, hcut.joined]

/-- One segment after the other, each judged when the separator behind it is found: what is written so
far, and what is left of the name. -/
def scrubOnward (written left : Bytes) : Bytes :=
  let segment := left.takeWhile fun b => !isSeparator b
  match _h : left.dropWhile fun b => !isSeparator b with
  | [] => written ++ scrubSegment segment
  | separator :: rest => scrubOnward (written ++ scrubSegment segment ++ [separator]) rest
termination_by left.length
decreasing_by
  have hle := (List.dropWhile_suffix (l := left) fun b => !isSeparator b).length_le
  rw [_h] at hle
  exact hle

theorem scrubOnward_eq (written left : Bytes) : scrubOnward written left = written ++ scrub left := by
  fun_induction scrubOnward written left with
  | case1 written left segment h =>
    have hleft : segment = left := by
      rw [← List.takeWhile_append_dropWhile (p := fun b => !isSeparator b) (l := left), h,
        List.append_nil]
    rw [← hleft, scrub_segment]
    intro b hb
    simpa using List.mem_takeWhile_imp hb
  | case2 written left segment separator rest h ih =>
    have hsegment : ∀ b ∈ segment, isSeparator b = false := fun b hb => by
      simpa using List.mem_takeWhile_imp hb
    have hseparator : isSeparator separator = true := by
      simpa [h] using List.head?_dropWhile_not (fun b => !isSeparator b) left
    have hleft : left = segment ++ separator :: rest := by
      rw [← h, List.takeWhile_append_dropWhile]
    rw [ih, hleft, scrub_append hseparator, scrub_segment hsegment]
    simp

/-- **Names are scrubbed segment by segment and only once.** The separators stay as they are, and each
segment between them is kept or becomes a star whatever stands around it. -/
theorem scrub_segmentwise (name : Bytes) :
    Cut name (segments name).1 (segments name).2 ∧
    Cut (scrub name) (scrubSegment (segments name).1) (scrubLater (segments name).2) ∧
    (scrub name).filter isSeparator = name.filter isSeparator ∧
    (∀ segment, scrubSegment segment = segment ∨ scrubSegment segment = [byte '*']) ∧
    (∀ separator other, isSeparator separator = true →
      scrub (name ++ separator :: other) = scrub name ++ separator :: scrub other) ∧
    scrub (scrub name) = scrub name ∧
    scrubOnward [] name = scrub name := by
  have hcut := cut_segments name
  have hscrub := cut_scrub hcut
  refine ⟨hcut, hscrub, ?_, scrubSegment_cases, ?_, scrub_scrub name, scrubOnward_eq [] name⟩
  · rw [hcut.filter, hscrub.filter]
    simp [scrubLater]
  · exact fun separator other hseparator => scrub_append hseparator name other

/-- Leading, doubled and trailing separators of both kinds around a number, a date and a name. -/
theorem scrub_segmentwise_odd_separators :
    let name := ascii "//user\\12"
    let other := ascii "\\2020-01-01T00:00Z//x1/"
    isSeparator (byte '/') = true ∧
      scrub (name ++ byte '/' :: other) = scrub name ++ byte '/' :: scrub other ∧
      scrub (name ++ byte '/' :: other) = ascii "//user\\*/\\*//x1/" := by
  intro name other
  have hseparator : isSeparator (byte '/') = true := by decide
  have happend := (scrub_segmentwise name).2.2.2.2.1 (byte '/') other hseparator
  refine ⟨hseparator, happend, happend.trans ?_⟩
  decide +kernel

end Telemetry.TransactionName

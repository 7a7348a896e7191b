import Mathlib.MeasureTheory.Measure.Lebesgue.Basic
import Telemetry.Interval

/-!
# The length of a union of intervals

Joining sorted intervals from left to right keeps the points that they cover and leaves gaps between the
pieces (`joined`), so the pieces are the connected parts of the union, and their lengths add up to its
length (`volume_covers`).  Nothing but the order of the ends decides how intervals are joined, so a change
of numbers that keeps the order changes the pieces with them (`map_pieces`).
-/

namespace Telemetry.Interval

/-! ## Pieces -/

section Order

variable {ν : Type} [LinearOrder ν] {intervals rest : List (ν × ν)} {current next : ν × ν} {x : ν}

/-- One of the intervals holds the point. -/
def Covers (intervals : List (ν × ν)) (x : ν) : Prop := ∃ i ∈ intervals, i.1 ≤ x ∧ x ≤ i.2

/-- No interval ends before it begins. -/
def Proper (intervals : List (ν × ν)) : Prop := ∀ i ∈ intervals, i.1 ≤ i.2

theorem covers_cons : Covers (next :: rest) x ↔ (next.1 ≤ x ∧ x ≤ next.2) ∨ Covers rest x := by
  simp [Covers]

/-- The intervals as disjoint pieces from left to right, with a gap between any two of them. -/
structure Joined (intervals pieces : List (ν × ν)) : Prop where
  covers : ∀ x, Covers pieces x ↔ Covers intervals x
  proper : Proper pieces
  apart : pieces.Pairwise fun a b => a.2 < b.1

theorem join_cons (current next : ν × ν) (rest : List (ν × ν)) : join current (next :: rest) =
    if next.1 ≤ current.2 then join (current.1, max current.2 next.2) rest
    else current :: join next rest := by
  rw [join, max_def_lt]

/-- The first piece begins where the first interval does. -/
theorem le_of_mem_join (hsorted : (current :: rest).Pairwise fun a b => a.1 ≤ b.1) :
    ∀ p ∈ join current rest, current.1 ≤ p.1 := by
  induction rest generalizing current with
  | nil => simp [join]
  | cons next rest ih =>
    obtain ⟨hcurrent, hrest⟩ := List.pairwise_cons.mp hsorted
    rw [join_cons]
    split
    · apply ih
      exact List.pairwise_cons.mpr
        ⟨fun i hi => hcurrent i (List.mem_cons_of_mem _ hi), (List.pairwise_cons.mp hrest).2⟩
    · intro p hp
      rcases List.mem_cons.mp hp with rfl | hp
      · exact le_rfl
      · exact (hcurrent next List.mem_cons_self).trans (ih hrest p hp)

theorem joined_join (hsorted : (current :: rest).Pairwise fun a b => a.1 ≤ b.1)
    (hproper : Proper (current :: rest)) : Joined (current :: rest) (join current rest) := by
  induction rest generalizing current with
  | nil => exact ⟨fun x => Iff.rfl, hproper, List.pairwise_singleton _ _⟩
  | cons next rest ih =>
    obtain ⟨hcurrent, hrest⟩ := List.pairwise_cons.mp hsorted
    obtain ⟨hlater, htail⟩ := List.pairwise_cons.mp hrest
    obtain ⟨hle, hproper⟩ := List.forall_mem_cons.mp hproper
    obtain ⟨hnext, hproper'⟩ := List.forall_mem_cons.mp hproper
    have hstart : current.1 ≤ next.1 := hcurrent next List.mem_cons_self
    rw [join_cons]
    split
    · next htouch =>
      -- the next interval begins within the current piece, which grows
      have hjoined := @ih (current.1, max current.2 next.2)
        (List.pairwise_cons.mpr ⟨fun i hi => hcurrent i (List.mem_cons_of_mem _ hi), htail⟩)
        (List.forall_mem_cons.mpr ⟨hle.trans (le_max_left _ _), hproper'⟩)
      refine ⟨fun x => (hjoined.covers x).trans ?_, hjoined.proper, hjoined.apart⟩
      rw [covers_cons, covers_cons, covers_cons, ← or_assoc]
      refine or_congr_left ?_
      constructor
      · rintro ⟨hx, hx'⟩
        rcases le_max_iff.mp hx' with h | h
        · exact Or.inl ⟨hx, h⟩
        · rcases le_total x current.2 with h' | h'
          · exact Or.inl ⟨hx, h'⟩
          · exact Or.inr ⟨htouch.trans h', h⟩
      · rintro (⟨hx, hx'⟩ | ⟨hx, hx'⟩)
        · exact ⟨hx, le_max_of_le_left hx'⟩
        · exact ⟨hstart.trans hx, le_max_of_le_right hx'⟩
    · next hgap =>
      have hjoined := ih hrest hproper
      refine ⟨fun x => ?_, List.forall_mem_cons.mpr ⟨hle, hjoined.proper⟩,
        List.pairwise_cons.mpr ⟨fun p hp => ?_, hjoined.apart⟩⟩
      · exact (covers_cons.trans (or_congr_right (hjoined.covers x))).trans covers_cons.symm
      · exact (not_le.mp hgap).trans_le (le_of_mem_join hrest p hp)

/-- The order of the ends, the beginning first. -/
theorem before_eq_false_iff {a b : ν × ν} : before b a = false ↔ toLex a ≤ toLex b := by
  rw [← Bool.not_eq_true, ← not_lt]
  refine not_congr ?_
  rw [Prod.Lex.toLex_lt_toLex, before, Bool.or_eq_true, Bool.and_eq_true, Bool.not_eq_true',
    decide_eq_true_iff, decide_eq_true_iff, decide_eq_false_iff_not]
  constructor
  · rintro (h | ⟨h, h'⟩)
    · exact Or.inl h
    · rcases (not_lt.mp h).lt_or_eq with h | h
      · exact Or.inl h
      · exact Or.inr ⟨h, h'⟩
  · rintro (h | ⟨h, h'⟩)
    · exact Or.inl h
    · exact Or.inr ⟨h.le.not_gt, h'⟩

theorem pairwise_sorted (intervals : List (ν × ν)) :
    (intervals.mergeSort fun a b => !before b a).Pairwise fun a b => toLex a ≤ toLex b := by
  have hle : ∀ a b : ν × ν, (!before b a) = true ↔ toLex a ≤ toLex b := fun a b => by
    rw [Bool.not_eq_true', before_eq_false_iff]
  have htrans : ∀ a b c : ν × ν, (!before b a) = true → (!before c b) = true → (!before c a) = true := by
    intro a b c
    simp only [hle]
    exact le_trans
  have htotal : ∀ a b : ν × ν, ((!before b a) || !before a b) = true := by
    intro a b
    simp only [Bool.or_eq_true, hle]
    exact le_total _ _
  exact (List.pairwise_mergeSort htrans htotal intervals).imp fun h => (hle _ _).mp h

/-- Intervals in any order are sorted to the same list. -/
theorem mergeSort_eq_of_perm {others : List (ν × ν)} (h : intervals.Perm others) :
    (intervals.mergeSort fun a b => !before b a) = others.mergeSort fun a b => !before b a := by
  refine List.Perm.eq_of_pairwise (fun a b _ _ hab hba => ?_) (pairwise_sorted intervals)
    (pairwise_sorted others) ?_
  · exact toLex_inj.mp (le_antisymm hab hba)
  · exact (List.mergeSort_perm _ _).trans (h.trans (List.mergeSort_perm _ _).symm)

theorem pieces_eq_of_perm {others : List (ν × ν)} (h : intervals.Perm others) :
    pieces intervals = pieces others := by
  rw [pieces, pieces, mergeSort_eq_of_perm h]

/-- **The pieces** are what the intervals cover, with gaps between them. -/
theorem joined (h : Proper intervals) : Joined intervals (pieces intervals) := by
  have hperm := List.mergeSort_perm intervals fun a b => !before b a
  have hmem : ∀ i, i ∈ (intervals.mergeSort fun a b => !before b a) ↔ i ∈ intervals :=
    fun i => hperm.mem_iff
  have hlex := pairwise_sorted intervals
  unfold pieces
  generalize (intervals.mergeSort fun a b => !before b a) = sorted at *
  have hcovers : ∀ x, Covers sorted x ↔ Covers intervals x := fun x => by
    simp only [Covers, hmem]
  cases sorted with
  | nil => exact ⟨hcovers, nofun, .nil⟩
  | cons first rest =>
    have hsorted : (first :: rest).Pairwise fun a b => a.1 ≤ b.1 :=
      hlex.imp fun hle => (Prod.Lex.toLex_le_toLex.mp hle).elim le_of_lt fun h => h.1.le
    have hjoined := joined_join hsorted fun i hi => h i ((hmem i).mp hi)
    exact ⟨fun x => (hjoined.covers x).trans (hcovers x), hjoined.proper, hjoined.apart⟩

/-- Each piece is as long as it can be: what the intervals cover without a gap lies within one. -/
theorem Joined.maximal [DenselyOrdered ν] {pieces : List (ν × ν)} (h : Joined intervals pieces) {a b : ν}
    (hle : a ≤ b) (hcovered : ∀ x, a ≤ x → x ≤ b → Covers intervals x) :
    ∃ p ∈ pieces, p.1 ≤ a ∧ b ≤ p.2 := by
  obtain ⟨hcovers, hproper, hapart⟩ := h
  replace hcovered : ∀ x, a ≤ x → x ≤ b → Covers pieces x := fun x hx hx' =>
    (hcovers x).mpr (hcovered x hx hx')
  clear hcovers
  induction pieces with
  | nil =>
    obtain ⟨i, hi, -⟩ := hcovered a le_rfl hle
    cases hi
  | cons p pieces ih =>
    obtain ⟨hgap, hapart⟩ := List.pairwise_cons.mp hapart
    obtain ⟨hp, hproper⟩ := List.forall_mem_cons.mp hproper
    rcases lt_or_ge p.2 a with hafter | hwithin
    · obtain ⟨q, hq, h⟩ := ih hproper hapart fun x hx hx' =>
        (covers_cons.mp (hcovered x hx hx')).resolve_left fun h => (hafter.trans_le hx).not_ge h.2
      exact ⟨q, List.mem_cons_of_mem _ hq, h⟩
    · refine ⟨p, List.mem_cons_self, ?_, ?_⟩
      · obtain h | ⟨q, hq, hqa, -⟩ := covers_cons.mp (hcovered a le_rfl hle)
        · exact h.1
        · exact absurd (hwithin.trans_lt (hgap q hq)) hqa.not_gt
      · by_contra hlong
        -- between the end of the piece and the next one there is a point that nothing covers
        obtain ⟨y, hy, hbelow⟩ : ∃ y, p.2 < y ∧ y ≤ b ∧ ∀ q ∈ pieces, y < q.1 := by
          cases pieces with
          | nil => exact ⟨b, not_le.mp hlong, le_rfl, nofun⟩
          | cons next later =>
            obtain ⟨hnext, -⟩ := List.pairwise_cons.mp hapart
            obtain ⟨y, hy, hy'⟩ := exists_between
              (lt_min (not_le.mp hlong) (hgap next List.mem_cons_self))
            obtain ⟨hyb, hynext⟩ := lt_min_iff.mp hy'
            refine ⟨y, hy, hyb.le, List.forall_mem_cons.mpr ⟨hynext, fun q hq => ?_⟩⟩
            exact hynext.trans_le
              ((hproper next List.mem_cons_self).trans (hnext q hq).le)
        obtain h | ⟨q, hq, hqy, -⟩ := covers_cons.mp (hcovered y (hwithin.trans hy.le) hbelow.1)
        · exact hy.not_ge h.2
        · exact (hbelow.2 q hq).not_ge hqy

end Order

/-! ## Other numbers -/

section Map

variable {μ ν : Type} [LT μ] [DecidableLT μ] [LE μ] [DecidableLE μ] [LT ν] [DecidableLT ν] [LE ν]
  [DecidableLE ν]

/-- The function keeps the order of these numbers. -/
structure Keeps (f : μ → ν) (P : μ → Prop) : Prop where
  lt : ∀ a b, P a → P b → (f a < f b ↔ a < b)
  le : ∀ a b, P a → P b → (f a ≤ f b ↔ a ≤ b)

variable {f : μ → ν} {P : μ → Prop} {intervals : List (μ × μ)}

omit [DecidableLE μ] [DecidableLE ν] in
theorem Keeps.before_map (h : Keeps f P) {a b : μ × μ} (ha : P a.1 ∧ P a.2) (hb : P b.1 ∧ P b.2) :
    before (Prod.map f f a) (Prod.map f f b) = before a b := by
  simp only [before, Prod.map_fst, Prod.map_snd, h.lt _ _ ha.1 hb.1, h.lt _ _ hb.1 ha.1,
    h.lt _ _ ha.2 hb.2]

theorem Keeps.map_join (h : Keeps f P) {current : μ × μ} {rest : List (μ × μ)}
    (hends : ∀ i ∈ current :: rest, P i.1 ∧ P i.2) :
    (join current rest).map (Prod.map f f) = join (Prod.map f f current) (rest.map (Prod.map f f)) := by
  induction rest generalizing current with
  | nil => rfl
  | cons next rest ih =>
    obtain ⟨hcurrent, hrest⟩ := List.forall_mem_cons.mp hends
    obtain ⟨hnext, hlater⟩ := List.forall_mem_cons.mp hrest
    have hle : (Prod.map f f next).1 ≤ (Prod.map f f current).2 ↔ next.1 ≤ current.2 :=
      h.le _ _ hnext.1 hcurrent.2
    have hlt : (Prod.map f f current).2 < (Prod.map f f next).2 ↔ current.2 < next.2 :=
      h.lt _ _ hcurrent.2 hnext.2
    rw [List.map_cons, join, join]
    by_cases htouch : next.1 ≤ current.2
    · rw [if_pos htouch, if_pos (hle.mpr htouch)]
      by_cases hlonger : current.2 < next.2
      · rw [if_pos hlonger, if_pos (hlt.mpr hlonger),
          @ih (current.1, next.2) (List.forall_mem_cons.mpr ⟨⟨hcurrent.1, hnext.2⟩, hlater⟩)]
        rfl
      · rw [if_neg hlonger, if_neg (mt hlt.mp hlonger),
          @ih current (List.forall_mem_cons.mpr ⟨hcurrent, hlater⟩)]
    · rw [if_neg htouch, if_neg (mt hle.mp htouch), List.map_cons, ih hrest]

omit [LT ν] [DecidableLT ν] [LE ν] [DecidableLE ν] in
theorem ends_of_mem_join {current : μ × μ} {rest : List (μ × μ)}
    (hends : ∀ i ∈ current :: rest, P i.1 ∧ P i.2) : ∀ p ∈ join current rest, P p.1 ∧ P p.2 := by
  induction rest generalizing current with
  | nil => exact hends
  | cons next rest ih =>
    obtain ⟨hcurrent, hrest⟩ := List.forall_mem_cons.mp hends
    obtain ⟨hnext, hlater⟩ := List.forall_mem_cons.mp hrest
    rw [join]
    split
    · refine ih (List.forall_mem_cons.mpr ⟨⟨hcurrent.1, ?_⟩, hlater⟩)
      dsimp only
      split
      · exact hnext.2
      · exact hcurrent.2
    · exact List.forall_mem_cons.mpr ⟨hcurrent, ih hrest⟩

omit [LT ν] [DecidableLT ν] [LE ν] [DecidableLE ν] in
/-- The ends of the pieces are ends of intervals. -/
theorem ends_of_mem_pieces (hends : ∀ i ∈ intervals, P i.1 ∧ P i.2) :
    ∀ p ∈ pieces intervals, P p.1 ∧ P p.2 := by
  have hmem : ∀ i ∈ intervals.mergeSort fun a b => !before b a, P i.1 ∧ P i.2 :=
    fun i hi => hends i ((List.mergeSort_perm _ _).mem_iff.mp hi)
  rw [pieces]
  generalize (intervals.mergeSort fun a b => !before b a) = sorted at hmem
  cases sorted with
  | nil => exact nofun
  | cons first rest => exact ends_of_mem_join hmem

/-- **A change of numbers that keeps their order changes the pieces with them.** -/
theorem Keeps.map_pieces (h : Keeps f P) (hends : ∀ i ∈ intervals, P i.1 ∧ P i.2) :
    (pieces intervals).map (Prod.map f f) = pieces (intervals.map (Prod.map f f)) := by
  have hsort : (intervals.mergeSort fun a b => !before b a).map (Prod.map f f) =
      (intervals.map (Prod.map f f)).mergeSort fun a b => !before b a :=
    List.map_mergeSort fun a ha b hb => by rw [h.before_map (hends b hb) (hends a ha)]
  have hmem : ∀ i ∈ intervals.mergeSort fun a b => !before b a, P i.1 ∧ P i.2 :=
    fun i hi => hends i ((List.mergeSort_perm _ _).mem_iff.mp hi)
  rw [pieces, pieces, ← hsort]
  generalize (intervals.mergeSort fun a b => !before b a) = sorted at hmem
  cases sorted with
  | nil => rfl
  | cons first rest => exact h.map_join hmem

end Map

/-! ## Lengths -/

section Length

open MeasureTheory

theorem covered_eq_sum {ν : Type} [AddCommGroup ν] [LinearOrder ν] (intervals : List (ν × ν)) :
    covered intervals = ((pieces intervals).map fun p => p.2 - p.1).sum := by
  rw [covered, List.sum_eq_foldl, List.foldl_map]

theorem measurableSet_covers (intervals : List (ℝ × ℝ)) : MeasurableSet {x | Covers intervals x} := by
  induction intervals with
  | nil =>
    convert MeasurableSet.empty
    simp [Covers]
  | cons i rest ih =>
    have hsplit : {x | Covers (i :: rest) x} = Set.Icc i.1 i.2 ∪ {x | Covers rest x} := by
      ext x
      exact covers_cons
    rw [hsplit]
    exact measurableSet_Icc.union ih

/-- Lengths of disjoint pieces add up. -/
theorem volume_of_apart {pieces : List (ℝ × ℝ)} (hproper : Proper pieces)
    (hapart : pieces.Pairwise fun a b => a.2 < b.1) :
    volume {x | Covers pieces x} = ENNReal.ofReal (pieces.map fun p => p.2 - p.1).sum := by
  induction pieces with
  | nil => simp [Covers]
  | cons p rest ih =>
    obtain ⟨hgap, hapart⟩ := List.pairwise_cons.mp hapart
    obtain ⟨hp, hproper⟩ := List.forall_mem_cons.mp hproper
    have hsplit : {x | Covers (p :: rest) x} = Set.Icc p.1 p.2 ∪ {x | Covers rest x} := by
      ext x
      exact covers_cons
    have hdisjoint : Disjoint (Set.Icc p.1 p.2) {x | Covers rest x} := by
      rw [Set.disjoint_left]
      rintro x ⟨-, hx⟩ ⟨q, hq, hqx, -⟩
      exact ((hgap q hq).trans_le hqx).not_ge hx
    have hnonneg : 0 ≤ (rest.map fun p => p.2 - p.1).sum := by
      refine List.sum_nonneg fun y hy => ?_
      obtain ⟨q, hq, rfl⟩ := List.mem_map.mp hy
      exact sub_nonneg.mpr (hproper q hq)
    rw [hsplit, measure_union hdisjoint (measurableSet_covers rest), ih hproper hapart, Real.volume_Icc,
      List.map_cons, List.sum_cons, ENNReal.ofReal_add (sub_nonneg.mpr hp) hnonneg]

/-- **The covered length is the length of what is covered.** -/
theorem volume_covers {intervals : List (ℝ × ℝ)} (h : Proper intervals) :
    volume {x | Covers intervals x} = ENNReal.ofReal (covered intervals) := by
  obtain ⟨hcovers, hproper, hapart⟩ := joined h
  rw [covered_eq_sum, ← volume_of_apart hproper hapart]
  simp only [hcovers]

variable {intervals others : List (ℚ × ℚ)}

theorem covered_cast (intervals : List (ℚ × ℚ)) :
    covered (intervals.map (Prod.map ((↑) : ℚ → ℝ) (↑))) = ((covered intervals : ℚ) : ℝ) := by
  have hkeeps : Keeps ((↑) : ℚ → ℝ) fun _ => True :=
    ⟨fun _ _ _ _ => Rat.cast_lt, fun _ _ _ _ => Rat.cast_le⟩
  rw [covered_eq_sum, covered_eq_sum, ← hkeeps.map_pieces fun _ _ => ⟨trivial, trivial⟩, Rat.cast_list_sum,
    List.map_map, List.map_map]
  refine congrArg List.sum (List.map_congr_left fun p _ => ?_)
  exact (Rat.cast_sub p.2 p.1).symm

/-- The points on the line that rational intervals cover. -/
def region (intervals : List (ℚ × ℚ)) : Set ℝ := {x | ∃ i ∈ intervals, (i.1 : ℝ) ≤ x ∧ x ≤ i.2}

/-- The covered length of rational intervals is the length of what they cover of the line. -/
theorem volume_region (h : Proper intervals) :
    volume (region intervals) = ENNReal.ofReal (covered intervals : ℚ) := by
  have hproper : Proper (intervals.map (Prod.map ((↑) : ℚ → ℝ) (↑))) := by
    intro i hi
    obtain ⟨q, hq, rfl⟩ := List.mem_map.mp hi
    exact Rat.cast_le.mpr (h q hq)
  rw [← covered_cast, ← volume_covers hproper]
  simp [region, Covers]

theorem covered_nonneg (h : Proper intervals) : 0 ≤ covered intervals := by
  rw [covered_eq_sum]
  refine List.sum_nonneg fun y hy => ?_
  obtain ⟨p, hp, rfl⟩ := List.mem_map.mp hy
  exact sub_nonneg.mpr ((joined h).proper p hp)

/-- More intervals cover no less. -/
theorem covered_mono (h : Proper others) (hsubset : intervals ⊆ others) :
    covered intervals ≤ covered others := by
  have hlength : volume (region intervals) ≤ volume (region others) :=
    measure_mono fun x ⟨i, hi, hx⟩ => ⟨i, hsubset hi, hx⟩
  rw [volume_region fun i hi => h i (hsubset hi), volume_region h,
    ENNReal.ofReal_le_ofReal_iff (Rat.cast_nonneg.mpr (covered_nonneg h))] at hlength
  exact Rat.cast_le.mp hlength

theorem covered_append_le (h : Proper intervals) (hothers : Proper others) :
    covered (intervals ++ others) ≤ covered intervals + covered others := by
  have hnonneg : (0 : ℝ) ≤ ((covered intervals + covered others : ℚ) : ℝ) :=
    Rat.cast_nonneg.mpr (add_nonneg (covered_nonneg h) (covered_nonneg hothers))
  have hunion : region (intervals ++ others) ⊆ region intervals ∪ region others := by
    rintro x ⟨i, hi, hx⟩
    exact (List.mem_append.mp hi).imp (fun hi => ⟨i, hi, hx⟩) fun hi => ⟨i, hi, hx⟩
  have hlength : volume (region (intervals ++ others)) ≤
      ENNReal.ofReal ((covered intervals + covered others : ℚ) : ℝ) := by
    calc volume (region (intervals ++ others))
        ≤ volume (region intervals) + volume (region others) :=
          (measure_mono hunion).trans (measure_union_le _ _)
      _ = ENNReal.ofReal ((covered intervals + covered others : ℚ) : ℝ) := by
          rw [volume_region h, volume_region hothers, Rat.cast_add,
            ENNReal.ofReal_add (Rat.cast_nonneg.mpr (covered_nonneg h))
              (Rat.cast_nonneg.mpr (covered_nonneg hothers))]
  rw [volume_region (List.forall_mem_append.mpr ⟨h, hothers⟩),
    ENNReal.ofReal_le_ofReal_iff hnonneg] at hlength
  exact Rat.cast_le.mp hlength

theorem proper_flatten {parts : List (List (ℚ × ℚ))} (h : ∀ part ∈ parts, Proper part) :
    Proper parts.flatten := by
  intro i hi
  obtain ⟨part, hpart, hi⟩ := List.mem_flatten.mp hi
  exact h part hpart i hi

theorem covered_flatten_le {parts : List (List (ℚ × ℚ))} (h : ∀ part ∈ parts, Proper part) :
    covered parts.flatten ≤ (parts.map covered).sum := by
  induction parts with
  | nil => simp [covered, pieces]
  | cons part parts ih =>
    obtain ⟨hpart, hparts⟩ := List.forall_mem_cons.mp h
    rw [List.flatten_cons, List.map_cons, List.sum_cons]
    exact (covered_append_le hpart (proper_flatten hparts)).trans (add_le_add_right (ih hparts) _)

/-- Parts that hold all intervals cover no less than these together. -/
theorem covered_le_sum {parts : List (List (ℚ × ℚ))} (h : ∀ part ∈ parts, Proper part)
    (hsubset : intervals ⊆ parts.flatten) : covered intervals ≤ (parts.map covered).sum :=
  (covered_mono (proper_flatten h) hsubset).trans (covered_flatten_le h)

end Length

end Telemetry.Interval

import Telemetry.Proofs.Event.Times
import Telemetry.Proofs.Extraction.NormalForm
import Telemetry.Proofs.Interval.Doubles
import Telemetry.Proofs.Ordered

/-!
# What breakdowns measure

A span counts for the first configured start that its operation has (`usable?_eq_some_iff`).  The entries
of a breakdown are one for each start that a span counts for and the total, each with the length of the
intervals that belong to its name (`measured_entries`).  The times of spans are finite doubles, so these
lengths do not depend on the order of the spans (`compute_perm`).
-/

namespace Telemetry.Breakdowns

open Binary64 Telemetry.Interval

variable {starts : List Bytes} {op start name : Bytes} {span : Json} {spans others : List Json}
  {interval : Float × Float} {usable : List (Bytes × (Float × Float))} {b : Breakdown}
  {breakdowns : List Breakdown} {event : Json}

/-! ## Usable spans -/

/-- The first of the starts that begins an operation. -/
def First (starts : List Bytes) (op start : Bytes) : Prop :=
  ∃ earlier later, starts = earlier ++ start :: later ∧ start <+: op ∧ ∀ s ∈ earlier, ¬ s <+: op

theorem find?_eq_some_iff_first :
    (starts.find? fun s => s.isPrefixOf op) = some start ↔ First starts op start := by
  simp only [List.find?_eq_some_iff_append, Bool.not_eq_true', ← Bool.not_eq_true,
    List.isPrefixOf_iff_prefix]
  constructor
  · rintro ⟨hstart, earlier, later, rfl, hearlier⟩
    exact ⟨earlier, later, rfl, hstart, hearlier⟩
  · rintro ⟨earlier, later, rfl, hstart, hearlier⟩
    exact ⟨hstart, earlier, later, rfl, hearlier⟩

/-- A span counts for a start with the time from its one end to the other. -/
structure Counts (starts : List Bytes) (span : Json) (start : Bytes) (interval : Float × Float) : Prop where
  op : ∃ op, span.text? "op" = some op ∧ First starts op start
  begins : Event.timeAt? span "start_timestamp" = some interval.1
  ends : Event.timeAt? span "timestamp" = some interval.2
  forward : ¬ interval.2 < interval.1

theorem usable?_eq_some_iff :
    usable? starts span = some (start, interval) ↔ Counts starts span start interval := by
  obtain ⟨begins, ends⟩ := interval
  unfold usable?
  simp only [bind, Option.bind_eq_some_iff, Option.guard_eq_some', pure, Option.some.injEq,
    find?_eq_some_iff_first, Bool.not_eq_true', decide_eq_false_iff_not, Prod.mk.injEq]
  constructor
  · rintro ⟨op, hop, _, hfirst, _, hbegins, _, hends, -, hforward, rfl, rfl, rfl⟩
    exact ⟨⟨op, hop, hfirst⟩, hbegins, hends, hforward⟩
  · rintro ⟨⟨op, hop, hfirst⟩, hbegins, hends, hforward⟩
    exact ⟨op, hop, start, hfirst, begins, hbegins, ends, hends, (), hforward, rfl, rfl, rfl⟩

/-- What the usable ones of some spans count for. -/
def counted (starts : List Bytes) (spans : List Json) : List (Bytes × (Float × Float)) :=
  spans.filterMap (usable? starts)

theorem mem_counted :
    (start, interval) ∈ counted starts spans ↔ ∃ span ∈ spans, Counts starts span start interval := by
  simp only [counted, List.mem_filterMap, usable?_eq_some_iff]

theorem exists_counts_iff :
    (∃ span ∈ spans, ∃ start interval, Counts starts span start interval) ↔ counted starts spans ≠ [] := by
  constructor
  · rintro ⟨span, hspan, start, interval, hcounts⟩
    exact List.ne_nil_of_mem (mem_counted.mpr ⟨span, hspan, hcounts⟩)
  · intro hne
    obtain ⟨⟨start, interval⟩, hu⟩ := List.exists_mem_of_ne_nil _ hne
    obtain ⟨span, hspan, hcounts⟩ := mem_counted.mp hu
    exact ⟨span, hspan, start, interval, hcounts⟩

theorem start_mem (h : (start, interval) ∈ counted starts spans) : start ∈ starts := by
  obtain ⟨span, -, ⟨op, -, earlier, later, rfl, -⟩, -, -, -⟩ := mem_counted.mp h
  exact List.mem_append_right _ List.mem_cons_self

/-! ## Intervals of a name -/

/-- The intervals that belong to an entry: all of them to the total, and to another entry those of the
spans that count for its start. -/
def intervalsAt (usable : List (Bytes × (Float × Float))) (name : Bytes) : List (Float × Float) :=
  (usable.filter fun u => name = totalName ∨ name = entryName u.1).map Prod.snd

theorem entryName_injective : Function.Injective entryName := fun _ _ h => List.append_cancel_left h

theorem entryName_ne_total (start : Bytes) : entryName start ≠ totalName := by
  intro h
  have hhead : some (byte 'o') = some (byte 't') := congrArg List.head? h
  exact absurd hhead (by decide)

theorem intervalsAt_total (usable : List (Bytes × (Float × Float))) :
    intervalsAt usable totalName = usable.map Prod.snd := by
  simp [intervalsAt]

theorem intervalsAt_entry (usable : List (Bytes × (Float × Float))) (start : Bytes) :
    intervalsAt usable (entryName start) = intervalsOf start usable := by
  unfold intervalsAt intervalsOf
  congr 1
  refine List.filter_congr fun u _ => decide_eq_decide.mpr ?_
  rw [or_iff_right (entryName_ne_total start), entryName_injective.eq_iff, eq_comm]

theorem intervalsAt_subset : intervalsAt usable name ⊆ usable.map Prod.snd :=
  List.map_subset _ (List.filter_subset_self _)

theorem finite_intervalsAt (starts : List Bytes) (spans : List Json) (name : Bytes) :
    Finite (intervalsAt (counted starts spans) name) := by
  intro i hi
  obtain ⟨⟨start, interval⟩, hu, rfl⟩ := List.mem_map.mp (intervalsAt_subset hi)
  obtain ⟨span, -, hcounts⟩ := mem_counted.mp hu
  exact ⟨Event.isFinite_timeAt? hcounts.begins, Event.isFinite_timeAt? hcounts.ends⟩

theorem proper_intervalsAt (starts : List Bytes) (spans : List Json) (name : Bytes) :
    Proper (exact (intervalsAt (counted starts spans) name)) := by
  intro i hi
  obtain ⟨j, hj, rfl⟩ := List.mem_map.mp hi
  obtain ⟨hbegins, hends⟩ := finite_intervalsAt starts spans name j hj
  obtain ⟨⟨start, interval⟩, hu, rfl⟩ := List.mem_map.mp (intervalsAt_subset hj)
  obtain ⟨span, -, hcounts⟩ := mem_counted.mp hu
  exact not_lt.mp (mt (lt_iff hends hbegins).mpr hcounts.forward)

/-! ## Entries -/

theorem intervalsOf_eq_nil_iff : intervalsOf start usable = [] ↔ start ∉ usable.map Prod.fst := by
  rw [intervalsOf, List.map_eq_nil_iff, List.filter_eq_nil_iff, List.mem_map, not_exists]
  refine forall_congr' fun u => ?_
  rw [not_and, decide_eq_true_iff]

theorem timeOf?_eq_some_iff {e : Bytes × Json} : timeOf? usable start = some e ↔
    start ∈ usable.map Prod.fst ∧
      e = (entryName start, milliseconds (covered (intervalsOf start usable))) := by
  unfold timeOf?
  split
  · next hnil => simp [intervalsOf_eq_nil_iff.mp hnil]
  · next hne =>
    rw [Option.some.injEq, eq_comm, iff_and_self]
    intro _
    by_contra hnot
    exact hne (intervalsOf_eq_nil_iff.mpr hnot)

theorem mem_keys_entries : name ∈ (entries starts usable).map Prod.fst ↔
    name = totalName ∨ ∃ start ∈ starts, start ∈ usable.map Prod.fst ∧ name = entryName start := by
  rw [entries, Ordered.mem_keys_insert, Ordered.mem_keys_ofList]
  refine or_congr_right ?_
  simp only [List.mem_map, List.mem_filterMap, timeOf?_eq_some_iff]
  constructor
  · rintro ⟨_, ⟨start, hstart, hcounts, rfl⟩, rfl⟩
    exact ⟨start, hstart, hcounts, rfl⟩
  · rintro ⟨start, hstart, hcounts, rfl⟩
    exact ⟨_, ⟨start, hstart, hcounts, rfl⟩, rfl⟩

theorem sorted_entries (starts : List Bytes) (usable : List (Bytes × (Float × Float))) :
    Ordered.Sorted (entries starts usable) := Ordered.sorted_ofList.insert

/-- Each entry has the length of the intervals that belong to its name. -/
theorem get?_entries (h : name ∈ (entries starts usable).map Prod.fst) :
    Ordered.get? name (entries starts usable) = some (milliseconds (covered (intervalsAt usable name))) := by
  by_cases htotal : name = totalName
  · rw [htotal, entries, Ordered.get?_insert_self, intervalsAt_total]
  · obtain ⟨v, hv⟩ : ∃ v, Ordered.get? name (entries starts usable) = some v :=
      Option.ne_none_iff_exists'.mp (mt Ordered.get?_eq_none_iff.mp (not_not.mpr h))
    rw [hv]
    rw [entries, Ordered.get?_insert_of_ne htotal, Ordered.get?_ofList] at hv
    obtain ⟨start, -, htime⟩ := List.mem_filterMap.mp (List.mem_reverse.mp (Ordered.mem_of_get? hv))
    obtain ⟨-, hentry⟩ := timeOf?_eq_some_iff.mp htime
    obtain ⟨rfl, rfl⟩ := Prod.mk.inj hentry
    rw [intervalsAt_entry]

/-- What is written for a breakdown that some of the spans count for.  The lengths are those of doubles;
read as exact rationals they are the lengths of the unions of intervals, of which the total is the
greatest and is no greater than the sum of the others. -/
structure Measured (starts : List Bytes) (spans : List Json) (members : List (Bytes × Json)) : Prop where
  sorted : Ordered.Sorted members
  names : ∀ name, name ∈ members.map Prod.fst ↔ name = totalName ∨
    ∃ span ∈ spans, ∃ start interval, Counts starts span start interval ∧ name = entryName start
  lengths : ∀ name ∈ members.map Prod.fst, Ordered.get? name members =
    some (milliseconds (covered (intervalsAt (counted starts spans) name)))
  finite : ∀ name, Finite (intervalsAt (counted starts spans) name)
  proper : ∀ name, Proper (exact (intervalsAt (counted starts spans) name))
  part_le : ∀ name, covered (exact (intervalsAt (counted starts spans) name)) ≤
    covered (exact (intervalsAt (counted starts spans) totalName))
  total_le : covered (exact (intervalsAt (counted starts spans) totalName)) ≤
    (((members.map Prod.fst).filter (· ≠ totalName)).map fun name =>
      covered (exact (intervalsAt (counted starts spans) name))).sum

/-- **The entries of a breakdown measure unions of intervals.** -/
theorem measured_entries (starts : List Bytes) (spans : List Json) :
    Measured starts spans (entries starts (counted starts spans)) := by
  have hnames : ∀ name, name ∈ (entries starts (counted starts spans)).map Prod.fst ↔ name = totalName ∨
      ∃ span ∈ spans, ∃ start interval, Counts starts span start interval ∧ name = entryName start := by
    intro name
    rw [mem_keys_entries]
    refine or_congr_right ⟨?_, ?_⟩
    · rintro ⟨start, -, hstart, rfl⟩
      obtain ⟨⟨_, interval⟩, hu, rfl⟩ := List.mem_map.mp hstart
      obtain ⟨span, hspan, hcounts⟩ := mem_counted.mp hu
      exact ⟨span, hspan, _, interval, hcounts, rfl⟩
    · rintro ⟨span, hspan, start, interval, hcounts, rfl⟩
      have hu := mem_counted.mpr ⟨span, hspan, hcounts⟩
      exact ⟨start, start_mem hu, List.mem_map_of_mem hu, rfl⟩
  have hproper := proper_intervalsAt starts spans
  refine ⟨sorted_entries _ _, hnames, fun name => get?_entries, finite_intervalsAt starts spans, hproper,
    fun name => covered_mono (hproper totalName) ?_, ?_⟩
  · rw [intervalsAt_total]
    exact List.map_subset _ intervalsAt_subset
  · -- every interval belongs to some entry that is not the total
    rw [← Function.comp_def covered, ← List.map_map]
    refine covered_le_sum ?_ ?_
    · intro part hpart
      obtain ⟨name, -, rfl⟩ := List.mem_map.mp hpart
      exact hproper name
    · rw [intervalsAt_total]
      intro i hi
      obtain ⟨_, hj, rfl⟩ := List.mem_map.mp hi
      obtain ⟨⟨start, interval⟩, hu, rfl⟩ := List.mem_map.mp hj
      obtain ⟨span, hspan, hcounts⟩ := mem_counted.mp hu
      have hname := (hnames (entryName start)).mpr (Or.inr ⟨span, hspan, start, interval, hcounts, rfl⟩)
      have hpart : entryName start ∈
          ((entries starts (counted starts spans)).map Prod.fst).filter (· ≠ totalName) :=
        List.mem_filter.mpr ⟨hname, decide_eq_true (entryName_ne_total start)⟩
      refine List.mem_flatten.mpr ⟨_, List.mem_map_of_mem hpart, List.mem_map_of_mem (List.mem_map.mpr ?_)⟩
      exact ⟨(start, interval), List.mem_filter.mpr ⟨hu, decide_eq_true (Or.inr rfl)⟩, rfl⟩

/-! ## Writing to events -/

/-- The entry of an event for a breakdown. -/
def entryAt (event : Json) (name : Bytes) : Option Json :=
  (event.get? (ascii "breakdowns")).bind fun written => written.get? name

theorem measure?_eq (b : Breakdown) (spans : List Json) : measure? b spans =
    if counted b.starts spans = [] then none
    else some (.object (entries b.starts (counted b.starts spans))) := by
  simp only [measure?, List.isEmpty_iff]
  rfl

/-- The event is an object that has these breakdowns. -/
structure Holds (event : Json) (written : List (Bytes × Json)) : Prop where
  object : event.object?.isSome = true
  written : (event.get? (ascii "breakdowns")).getD (.object []) = .object written

variable {written : List (Bytes × Json)}

/-- An event without breakdowns has none of them. -/
theorem Holds.get?_cases (h : Holds event written) :
    event.get? (ascii "breakdowns") = some (.object written) ∨
      event.get? (ascii "breakdowns") = none ∧ written = [] := by
  have hwritten := h.written
  cases hget : event.get? (ascii "breakdowns") with
  | none =>
    rw [hget] at hwritten
    cases hwritten
    exact Or.inr ⟨rfl, rfl⟩
  | some v =>
    rw [hget] at hwritten
    exact Or.inl (congrArg some hwritten)

theorem Holds.entryAt_eq (h : Holds event written) (name : Bytes) :
    entryAt event name = Ordered.get? name written := by
  unfold entryAt
  obtain hget | ⟨hget, rfl⟩ := h.get?_cases <;> rw [hget] <;> rfl

theorem Holds.set (h : Holds event written) (others : List (Bytes × Json)) :
    Holds (event.set (ascii "breakdowns") (.object others)) others := by
  refine ⟨(Json.AgreeExcept.set event _ _).object.trans h.object, ?_⟩
  rw [Json.get?_set_self h.object]
  rfl

theorem Holds.write (h : Holds event written) (spans : List Json) (b : Breakdown) :
    ∃ written', Holds (write spans event b) written' ∧
      Ordered.get? b.name written' = (measure? b spans).or (Ordered.get? b.name written) ∧
      ∀ name, name ≠ b.name → Ordered.get? name written' = Ordered.get? name written := by
  unfold Breakdowns.write
  cases hentry : measure? b spans with
  | none => exact ⟨written, h, rfl, fun _ _ => rfl⟩
  | some entry =>
    dsimp only
    rw [h.written]
    exact ⟨_, h.set (Ordered.insert b.name entry written), Ordered.get?_insert_self _ _ _, fun name hne =>
      Ordered.get?_insert_of_ne hne _ _⟩

/-- Breakdowns of different names do not get in each other's way. -/
theorem Holds.foldl_write (h : Holds event written) (spans : List Json) {breakdowns : List Breakdown}
    (hnames : (breakdowns.map (·.name)).Nodup) :
    ∃ written', Holds (breakdowns.foldl (Breakdowns.write spans) event) written' ∧
      (∀ b ∈ breakdowns,
        Ordered.get? b.name written' = (measure? b spans).or (Ordered.get? b.name written)) ∧
      ∀ name ∉ breakdowns.map (·.name), Ordered.get? name written' = Ordered.get? name written := by
  induction breakdowns generalizing event written with
  | nil => exact ⟨written, h, nofun, fun _ _ => rfl⟩
  | cons b rest ih =>
    obtain ⟨hb, hrest⟩ := List.nodup_cons.mp hnames
    obtain ⟨first, hfirst, hself, hothers⟩ := h.write spans b
    obtain ⟨last, hlast, hentries, hframe⟩ := ih hfirst hrest
    refine ⟨last, hlast, List.forall_mem_cons.mpr ⟨(hframe _ hb).trans hself, fun b' hb' => ?_⟩, ?_⟩
    · have hne : b'.name ≠ b.name := by
        intro heq
        exact hb (List.mem_map.mpr ⟨b', hb', heq⟩)
      rw [hentries b' hb', hothers _ hne]
    · intro name hname
      obtain ⟨hne, hname⟩ := List.ne_and_not_mem_of_not_mem_cons hname
      rw [hframe name hname, hothers name hne]

theorem holds_dropMisshapen (h : event.object?.isSome = true) :
    ∃ written, Holds (dropMisshapen event) written ∧
      ∀ name, Ordered.get? name written = entryAt event name := by
  cases event with
  | object members =>
    unfold dropMisshapen entryAt
    cases hget : (Json.object members).get? (ascii "breakdowns") with
    | none => exact ⟨[], ⟨rfl, by rw [hget]; rfl⟩, fun _ => rfl⟩
    | some v =>
      cases v with
      | object written => exact ⟨written, ⟨rfl, by rw [hget]; rfl⟩, fun _ => rfl⟩
      | _ =>
        refine ⟨[], ⟨rfl, ?_⟩, fun _ => rfl⟩
        exact congrArg (Option.getD · _) (Ordered.get?_erase_self _ members)
  | _ => cases h

/-- **Every breakdown writes its own entry**, and leaves what is there if no span counts for it. -/
theorem entryAt_compute (hspans : event.get? (ascii "spans") = some (.array spans))
    (hnames : (breakdowns.map (·.name)).Nodup) (hb : b ∈ breakdowns) :
    entryAt (compute breakdowns event) b.name = (measure? b spans).or (entryAt event b.name) := by
  obtain ⟨written, hholds, hwritten⟩ := holds_dropMisshapen (Json.isSome_object?_of_get? hspans)
  obtain ⟨last, hlast, hentries, -⟩ := hholds.foldl_write spans hnames
  have hnil : breakdowns.isEmpty = false := by
    cases breakdowns with
    | nil => cases hb
    | cons _ _ => rfl
  rw [compute, hnil, if_neg Bool.false_ne_true, hspans]
  rw [hlast.entryAt_eq, hentries b hb, hwritten]

/-! ## Breakdowns as insertions -/

/-- The entries that are written for some spans, in the order of the breakdowns. -/
def writes (breakdowns : List Breakdown) (spans : List Json) : List (Bytes × Json) :=
  breakdowns.filterMap fun b => (measure? b spans).map fun entry => (b.name, entry)

/-- **The breakdowns are written by insertions** that do not depend on what is there. -/
theorem foldl_write_eq (h : Holds event written) (breakdowns : List Breakdown) (spans : List Json) :
    breakdowns.foldl (write spans) event =
      if writes breakdowns spans = [] then event
      else event.set (ascii "breakdowns")
        (.object ((writes breakdowns spans).foldl (fun m e => Ordered.insert e.1 e.2 m) written)) := by
  induction breakdowns generalizing event written with
  | nil => rfl
  | cons b rest ih =>
    rw [List.foldl_cons]
    cases hentry : measure? b spans with
    | none =>
      have hwrites : writes (b :: rest) spans = writes rest spans :=
        List.filterMap_cons_none (congrArg (Option.map _) hentry)
      have hwrite : write spans event b = event := by rw [write, hentry]
      rw [hwrites, hwrite, ih h]
    | some entry =>
      have hwrites : writes (b :: rest) spans = (b.name, entry) :: writes rest spans :=
        List.filterMap_cons_some (congrArg (Option.map _) hentry)
      have hwrite : write spans event b =
          event.set (ascii "breakdowns") (.object (Ordered.insert b.name entry written)) := by
        rw [write, hentry]
        dsimp only
        rw [h.written]
        rfl
      rw [hwrites, hwrite, ih (h.set _), Json.set_set, if_neg (List.cons_ne_nil _ _)]
      split
      · next hnil => simp [hnil]
      · rfl

theorem mem_keys_writes {name : Bytes} (h : name ∈ (writes breakdowns spans).map Prod.fst) :
    name ∈ breakdowns.map (·.name) := by
  obtain ⟨e, he, rfl⟩ := List.mem_map.mp h
  obtain ⟨b, hb, he⟩ := List.mem_filterMap.mp he
  obtain ⟨entry, -, rfl⟩ := Option.map_eq_some_iff.mp he
  exact List.mem_map_of_mem hb

theorem Holds.dropMisshapen_eq (h : Holds event written) : dropMisshapen event = event := by
  unfold dropMisshapen
  obtain hget | ⟨hget, -⟩ := h.get?_cases <;> rw [hget]

/-- Events with the same spans are all left alone, or the breakdowns are written to all of them. -/
theorem compute_cases (breakdowns : List Breakdown) (event : Json) :
    (∀ other : Json, other.get? (ascii "spans") = event.get? (ascii "spans") →
      compute breakdowns other = other) ∨
    ∃ spans, event.get? (ascii "spans") = some (.array spans) ∧
      ∀ other : Json, other.get? (ascii "spans") = event.get? (ascii "spans") →
        compute breakdowns other = breakdowns.foldl (write spans) (dropMisshapen other) := by
  cases hnil : breakdowns.isEmpty with
  | true => exact Or.inl fun other _ => by rw [compute, hnil, if_pos rfl]
  | false =>
    cases hget : event.get? (ascii "spans") with
    | none =>
      left
      intro other hother
      simp only [compute, hnil, hother, ite_self]
    | some v =>
      cases v with
      | array spans =>
        right
        refine ⟨spans, rfl, fun other hother => ?_⟩
        rw [compute, hnil, hother]
        rfl
      | _ =>
        left
        intro other hother
        simp only [compute, hnil, hother, ite_self]

/-- **Entries that no breakdown has the name of are kept.** -/
theorem compute_keeps (h : event.get? (ascii "breakdowns") = some (.object written))
    (breakdowns : List Breakdown) :
    ∃ written', (compute breakdowns event).get? (ascii "breakdowns") = some (.object written') ∧
      ∀ name ∉ breakdowns.map (·.name), Ordered.get? name written' = Ordered.get? name written := by
  have hobject := Json.isSome_object?_of_get? h
  have hholds : Holds event written := ⟨hobject, by rw [h]; rfl⟩
  obtain hsame | ⟨spans, -, hwrites⟩ := compute_cases breakdowns event
  · rw [hsame event rfl]
    exact ⟨written, h, fun _ _ => rfl⟩
  · rw [hwrites event rfl, hholds.dropMisshapen_eq, foldl_write_eq hholds]
    split
    · exact ⟨written, h, fun _ _ => rfl⟩
    · refine ⟨_, Json.get?_set_self hobject _ _, fun name hname => ?_⟩
      have hnone : Ordered.get? name (writes breakdowns spans).reverse = none := by
        rw [Ordered.get?_eq_none_iff, List.map_reverse, List.mem_reverse]
        exact mt mem_keys_writes hname
      rw [Ordered.get?_foldl_insert, hnone, Option.none_or]

/-! ## The order of the spans -/

theorem counted_perm (h : spans.Perm others) (starts : List Bytes) :
    (counted starts spans).Perm (counted starts others) := h.filterMap _

theorem covered_intervalsAt_perm (h : spans.Perm others) (starts : List Bytes) (name : Bytes) :
    covered (intervalsAt (counted starts spans) name) = covered (intervalsAt (counted starts others) name) :=
  covered_perm (finite_intervalsAt starts spans name) (((counted_perm h starts).filter _).map _)

theorem entries_perm (h : spans.Perm others) (starts : List Bytes) :
    entries starts (counted starts spans) = entries starts (counted starts others) := by
  have hkeys : ∀ name, name ∈ (entries starts (counted starts spans)).map Prod.fst ↔
      name ∈ (entries starts (counted starts others)).map Prod.fst := fun name => by
    simp only [mem_keys_entries, ((counted_perm h starts).map Prod.fst).mem_iff]
  refine (sorted_entries _ _).ext (sorted_entries _ _) fun name => ?_
  by_cases hname : name ∈ (entries starts (counted starts spans)).map Prod.fst
  · rw [get?_entries hname, get?_entries ((hkeys name).mp hname), covered_intervalsAt_perm h]
  · rw [Ordered.get?_eq_none_iff.mpr hname, Ordered.get?_eq_none_iff.mpr (mt (hkeys name).mpr hname)]

theorem measure?_perm (h : spans.Perm others) (b : Breakdown) : measure? b spans = measure? b others := by
  have hnil : counted b.starts spans = [] ↔ counted b.starts others = [] := by
    rw [← List.length_eq_zero_iff, (counted_perm h b.starts).length_eq, List.length_eq_zero_iff]
  simp only [measure?_eq, hnil, entries_perm h]

/-- Setting a member behind the breakdowns commutes with setting these. -/
theorem set_breakdowns_comm (event v w : Json) {name : Bytes} (h : ascii "breakdowns" < name) :
    (event.set name v).set (ascii "breakdowns") w = (event.set (ascii "breakdowns") w).set name v := by
  cases event with
  | object members => exact congrArg Json.object (Ordered.insert_comm h w v members)
  | _ => rfl

theorem breakdowns_lt_spans : ascii "breakdowns" < ascii "spans" := by decide

theorem write_set_spans (spans : List Json) (event v : Json) (b : Breakdown) :
    write spans (event.set (ascii "spans") v) b = (write spans event b).set (ascii "spans") v := by
  have hget := (Json.AgreeExcept.set event (ascii "spans") v).get? (ascii "breakdowns") (by decide)
  unfold write
  rw [hget]
  cases measure? b spans with
  | none => rfl
  | some entry => exact set_breakdowns_comm event v _ breakdowns_lt_spans

theorem foldl_write_set_spans (spans : List Json) (event v : Json) (breakdowns : List Breakdown) :
    breakdowns.foldl (write spans) (event.set (ascii "spans") v) =
      (breakdowns.foldl (write spans) event).set (ascii "spans") v := by
  induction breakdowns generalizing event with
  | nil => rfl
  | cons b rest ih => rw [List.foldl_cons, write_set_spans, ih, List.foldl_cons]

theorem dropMisshapen_set_spans (event v : Json) :
    dropMisshapen (event.set (ascii "spans") v) = (dropMisshapen event).set (ascii "spans") v := by
  have hget := (Json.AgreeExcept.set event (ascii "spans") v).get? (ascii "breakdowns") (by decide)
  unfold dropMisshapen
  rw [hget]
  split
  · rfl
  · rfl
  · cases event with
    | object members => exact congrArg Json.object (Ordered.erase_insert breakdowns_lt_spans v members)
    | _ => rfl

/-- **The order of the spans does not matter**, to the last bit of what is written. -/
theorem compute_perm (breakdowns : List Breakdown) (hspans : event.get? (ascii "spans") = some (.array spans))
    (hperm : spans.Perm others) :
    compute breakdowns (event.set (ascii "spans") (.array others)) =
      (compute breakdowns event).set (ascii "spans") (.array others) := by
  have hset : (event.set (ascii "spans") (.array others)).get? (ascii "spans") = some (.array others) :=
    Json.get?_set_self (Json.isSome_object?_of_get? hspans) _ _
  have hwrite : write others = write spans := by
    funext event b
    rw [write, write, measure?_perm hperm]
  unfold compute
  rw [hset, hspans]
  split
  · rfl
  · dsimp only
    rw [hwrite, dropMisshapen_set_spans, foldl_write_set_spans]

/-! ## Breakdowns as unions of intervals -/

/-- **Breakdowns measure unions of intervals.**  The covered length of rational intervals is that of the
points which they cover, summed up over the longest pieces without a gap, and doubles are joined as the
rationals that they stand for.  A breakdown that spans count for is written with one entry for each start
that a span counts for and with the total, whose lengths are such lengths; another one leaves what is
there.  A different order of the spans changes nothing but the spans. -/
theorem breakdowns_measure_unions :
    (∀ intervals : List (ℚ × ℚ), Proper intervals →
      Interval.Joined intervals (pieces intervals) ∧
      (∀ a b, a ≤ b → (∀ x, a ≤ x → x ≤ b → Covers intervals x) →
        ∃ p ∈ pieces intervals, p.1 ≤ a ∧ b ≤ p.2) ∧
      covered intervals = ((pieces intervals).map fun p => p.2 - p.1).sum ∧
      MeasureTheory.volume (region intervals) = ENNReal.ofReal (covered intervals : ℚ)) ∧
    (∀ intervals : List (Float × Float), Finite intervals →
      exact (pieces intervals) = pieces (exact intervals)) ∧
    ∀ (event : Json) (spans : List Json) (breakdowns : List Breakdown),
      event.get? (ascii "spans") = some (.array spans) → (breakdowns.map (·.name)).Nodup →
      (∀ b ∈ breakdowns,
        ((∃ span ∈ spans, ∃ start interval, Counts b.starts span start interval) →
          ∃ members, entryAt (compute breakdowns event) b.name = some (.object members) ∧
            Measured b.starts spans members) ∧
        ((¬ ∃ span ∈ spans, ∃ start interval, Counts b.starts span start interval) →
          entryAt (compute breakdowns event) b.name = entryAt event b.name)) ∧
      ∀ others, spans.Perm others →
        compute breakdowns (event.set (ascii "spans") (.array others)) =
          (compute breakdowns event).set (ascii "spans") (.array others) := by
  refine ⟨fun intervals hproper => ?_, fun intervals => exact_pieces,
    fun event spans breakdowns hspans hnames =>
      ⟨fun b hb => ?_, fun others => compute_perm breakdowns hspans⟩⟩
  · have hjoined := joined hproper
    exact ⟨hjoined, fun a b => hjoined.maximal, covered_eq_sum intervals, volume_region hproper⟩
  · rw [exists_counts_iff, entryAt_compute hspans hnames hb, measure?_eq]
    constructor
    · intro hne
      rw [if_neg hne]
      exact ⟨_, rfl, measured_entries b.starts spans⟩
    · intro hnil
      rw [if_pos (not_not.mp hnil)]
      rfl

/-- Two spans that overlap, of which each is the first for its start, in either order. -/
theorem breakdowns_measure_unions_overlapping :
    let span := fun (op : String) (begins ends : UInt64) => Json.object [(ascii "op", .string (ascii op)),
      (ascii "start_timestamp", .number (.unsigned begins)), (ascii "timestamp", .number (.unsigned ends))]
    let spans := [span "db.query" 1 3, span "http" 2 5]
    let event := Json.object [(ascii "spans", .array spans)]
    let b : Breakdown := ⟨ascii "span_ops", [ascii "db", ascii "http"]⟩
    (∃ members, entryAt (compute [b] event) (ascii "span_ops") = some (.object members) ∧
      Measured b.starts spans members) ∧
      entryAt (compute [⟨ascii "other", []⟩] event) (ascii "other") = none ∧
      compute [b] (event.set (ascii "spans") (.array spans.reverse)) =
        (compute [b] event).set (ascii "spans") (.array spans.reverse) ∧
      MeasureTheory.volume (region [(1, 3), (2, 5)]) = ENNReal.ofReal (covered [(1, 3), (2, 5)] : ℚ) ∧
      exact (pieces [(1, 3), (2, 5)]) = pieces (exact [(1, 3), (2, 5)]) := by
  intro span spans event b
  obtain ⟨hexact, hdoubles, hcompute⟩ := breakdowns_measure_unions
  have hcounts : ∃ s ∈ spans, ∃ start interval, Counts b.starts s start interval :=
    ⟨span "db.query" 1 3, List.mem_cons_self, ascii "db", (1, 3),
      usable?_eq_some_iff.mp (by decide +kernel)⟩
  have hnone : ¬ ∃ s ∈ spans, ∃ start interval, Counts [] s start interval := by
    rintro ⟨s, -, start, interval, ⟨op, -, earlier, later, hstarts, -⟩, -⟩
    cases earlier <;> cases hstarts
  obtain ⟨hentries, hperm⟩ := hcompute event spans [b] rfl (List.nodup_singleton _)
  obtain ⟨hother, -⟩ := hcompute event spans [⟨ascii "other", []⟩] rfl (List.nodup_singleton _)
  refine ⟨(hentries b List.mem_cons_self).1 hcounts, (hother _ List.mem_cons_self).2 hnone,
    hperm _ (List.reverse_perm spans).symm, (hexact _ ?_).2.2.2, hdoubles _ ?_⟩
  · simp [Proper]
    norm_num
  · unfold Interval.Finite
    decide +kernel

end Telemetry.Breakdowns

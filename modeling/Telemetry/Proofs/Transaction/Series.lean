import Telemetry.Proofs.Transaction.Points

/-!
# Which sources share a series

The values of one name end up in one series.  The sources of a transaction have names of their own but for
one kind of pair: breakdown names and keys are joined by a dot and may hold dots themselves, so two entries
share a name if one breakdown is named as the other, a dot and more, and the key of the other makes up for it
(`Source.Joined`).  Units have to agree too.  `Source.name_eq_iff` says that there is no other pair, and
`names_of_points` what follows for the points of a transaction.
-/

namespace Telemetry.Transaction

/-! ## Names of sources -/

/-- Texts joined by a separator are the same text only if one first part is the other, the separator
and more. -/
theorem join_eq_iff {sep : UInt8} {a b a' b' : Bytes} : a ++ sep :: b = a' ++ sep :: b' ↔ (a = a' ∧ b = b') ∨
    (∃ t, a' = a ++ sep :: t ∧ b = t ++ sep :: b') ∨ ∃ t, a = a' ++ sep :: t ∧ b' = t ++ sep :: b := by
  rw [List.append_eq_append_iff]
  constructor
  · rintro (⟨gap, rfl, hrest⟩ | ⟨gap, rfl, hrest⟩)
    · cases gap with
      | nil => simp_all
      | cons c t => simp_all
    · cases gap with
      | nil => simp_all
      | cons c t => simp_all
  · rintro (⟨rfl, rfl⟩ | ⟨t, rfl, rfl⟩ | ⟨t, rfl, rfl⟩)
    · exact .inl ⟨[], by simp⟩
    · exact .inl ⟨sep :: t, by simp⟩
    · exact .inr ⟨sep :: t, by simp⟩

namespace Source

/-- Entries whose breakdown and key are one text, cut at different dots. -/
inductive Joined : Source → Source → Prop
  | intro (breakdown t key : Bytes) :
      Joined (.part breakdown (t ++ byte '.' :: key)) (.part (breakdown ++ byte '.' :: t) key)

variable {s s' : Source}

theorem Joined.name_eq (h : Joined s s') : s.name = s'.name := by
  cases h with
  | intro breakdown t key => simp [Source.name]

theorem Joined.dot_mem (h : Joined s s') :
    ∃ breakdown key, s' = .part breakdown key ∧ byte '.' ∈ breakdown := by
  cases h with
  | intro breakdown t key => exact ⟨_, key, rfl, by simp⟩

theorem Joined.ne (h : Joined s s') : s ≠ s' := by
  cases h with
  | intro breakdown t key =>
    intro heq
    have hbreakdown := (Source.part.inj heq).1
    simp at hbreakdown

/-- The letter that names of a kind of source begin with. -/
def initial : Source → UInt8
  | .duration => byte 'd'
  | .measurement _ => byte 'm'
  | .part _ _ => byte 'b'

theorem head?_name (s : Source) : s.name.head? = some s.initial := by
  cases s <;> rfl

/-- **Only entries of breakdowns share a name.** -/
theorem name_eq_iff : s.name = s'.name ↔ s = s' ∨ Joined s s' ∨ Joined s' s := by
  constructor
  · intro h
    have hinitial : s.initial = s'.initial := by
      have hhead := congrArg List.head? h
      rw [head?_name, head?_name] at hhead
      exact Option.some.inj hhead
    cases s <;> cases s'
    case duration.duration => exact .inl rfl
    case measurement.measurement name name' =>
      exact .inl (congrArg Source.measurement (List.append_cancel_left h))
    case part.part breakdown key breakdown' key' =>
      rw [name, name, List.append_assoc, List.append_assoc, List.append_cancel_left_eq] at h
      rcases join_eq_iff.mp h with ⟨rfl, rfl⟩ | ⟨t, rfl, rfl⟩ | ⟨t, rfl, rfl⟩
      · exact .inl rfl
      · exact .inr (.inl (.intro breakdown t key'))
      · exact .inr (.inr (.intro breakdown' t key))
    all_goals
      simp only [initial] at hinitial
      exact absurd hinitial (by decide)
  · rintro (rfl | h | h)
    · rfl
    · exact h.name_eq
    · exact h.name_eq.symm

theorem not_before_self (s : Source) : ¬s.Before s := by
  intro h
  cases s with
  | duration => exact h
  | measurement name => exact List.lt_irrefl name h
  | part breakdown key =>
    rcases h with h | ⟨-, h⟩
    · exact List.lt_irrefl breakdown h
    · exact List.lt_irrefl key h

end Source

/-! ## Names of samples -/

/-- Entries of one unit whose breakdown and key are one text, cut at different dots. -/
def Sample.Collide (a b : Sample) : Prop :=
  a.unit = b.unit ∧ (a.source.Joined b.source ∨ b.source.Joined a.source)

theorem Sample.Collide.name_eq {a b : Sample} (h : a.Collide b) : a.name = b.name := by
  have hsource : a.source.name = b.source.name := h.2.elim (·.name_eq) (·.name_eq.symm)
  rw [name, name, h.1, hsource]

section Points

variable {config : Config} {event : Json} {stop : Float} {a b : Sample}

/-- An event gives one sample of a source. -/
theorem eq_of_source_eq (h : event.InOrder) (ha : a ∈ samples config event stop)
    (hb : b ∈ samples config event stop) (heq : a.source = b.source) : a = b := by
  have hnodup : ((samples config event stop).map Sample.source).Nodup := by
    refine List.pairwise_map.mpr ((pairwise_samples h config stop).imp ?_)
    intro a b hbefore heq
    rw [heq] at hbefore
    exact b.source.not_before_self hbefore
  exact List.inj_on_of_nodup_map hnodup ha hb heq

theorem eq_or_collide_of_name_eq (h : event.InOrder) (hstop : Event.timeAt? event "timestamp" = some stop)
    (ha : Gives config event stop a) (hb : Gives config event stop b) (heq : a.name = b.name) :
    a = b ∨ a.Collide b := by
  have hsame : some a.identifier = some b.identifier := by
    rw [← parse?_name_of_gives ha, ← parse?_name_of_gives hb, heq]
  obtain ⟨-, -, hname, hunit⟩ := Identifier.mk.inj (Option.some.inj hsame)
  rcases Source.name_eq_iff.mp hname with hsource | hjoined
  · exact .inl (eq_of_source_eq h ((mem_samples_iff hstop).mpr ha) ((mem_samples_iff hstop).mpr hb) hsource)
  · exact .inr ⟨hunit, hjoined⟩

theorem Sample.Collide.ne (h : a.Collide b) : a ≠ b := by
  rintro rfl
  exact h.2.elim (·.ne rfl) (·.ne rfl)

theorem nodup_names_iff (h : event.InOrder) (hstop : Event.timeAt? event "timestamp" = some stop) :
    ((samples config event stop).map Sample.name).Nodup ↔
      ∀ a b, Gives config event stop a → Gives config event stop b → ¬a.Collide b := by
  have hnodup : (samples config event stop).Nodup := by
    refine (pairwise_samples h config stop).imp ?_
    rintro a b hbefore rfl
    exact a.source.not_before_self hbefore
  rw [List.nodup_map_iff_inj_on hnodup]
  simp only [mem_samples_iff hstop]
  constructor
  · intro hinj a b ha hb hcollide
    exact hcollide.ne (hinj a ha b hb hcollide.name_eq)
  · intro hnone a ha b hb heq
    exact (eq_or_collide_of_name_eq h hstop ha hb heq).resolve_right (hnone a b ha hb)

/-- Without dots in the names of breakdowns nothing collides. -/
theorem not_collide_of_dotless
    (hdots : ∀ breakdowns, event.get? (ascii "breakdowns") = some (.object breakdowns) →
    ∀ m ∈ breakdowns, byte '.' ∉ m.1) (ha : Gives config event stop a) (hb : Gives config event stop b) :
    ¬a.Collide b := by
  have hdotless : ∀ {s : Sample} {breakdown key : Bytes}, Gives config event stop s →
      s.source = .part breakdown key → byte '.' ∉ breakdown := by
    rintro _ _ _ (_ | _ | ⟨hbreakdowns, hentries⟩) hsource
    · cases hsource
    · cases hsource
    · cases hsource
      exact hdots _ hbreakdowns _ hentries
  have hjoined : ∀ {s s' : Sample}, Gives config event stop s' → ¬s.source.Joined s'.source := by
    intro s s' hs' hjoined
    obtain ⟨breakdown, key, hsource, hdot⟩ := hjoined.dot_mem
    exact hdotless hs' hsource hdot
  rintro ⟨-, h | h⟩
  · exact hjoined hb h
  · exact hjoined ha h

end Points

/-- **Two sources of a transaction share a name only if they are entries of breakdowns whose
breakdown and key are one text, cut at different dots, with one unit.**  So no two measurements
share a name, no measurement and breakdown, and the duration shares it with nothing; the names of
the points are distinct exactly if there is no such pair, and there is none if no breakdown has a
dot in its name. -/
theorem names_of_points (config : Config) (event : Json) (h : event.InOrder) (points : List (Point Float))
    (hpoints : points? config event = some points) :
    ∃ stop, Event.timeAt? event "timestamp" = some stop ∧
      (∀ name, name ∈ points.map Point.name ↔ ∃ s, Gives config event stop s ∧ s.name = name) ∧
      (∀ a b, Gives config event stop a → Gives config event stop b →
        (a.name = b.name ↔ a = b ∨ a.Collide b)) ∧
      ((points.map Point.name).Nodup ↔
        ∀ a b, Gives config event stop a → Gives config event stop b → ¬a.Collide b) ∧
      ((∀ breakdowns, event.get? (ascii "breakdowns") = some (.object breakdowns) →
        ∀ m ∈ breakdowns, byte '.' ∉ m.1) → (points.map Point.name).Nodup) := by
  obtain ⟨stop, hstop, rfl⟩ := exists_samples hpoints
  have hnames : ((samples config event stop).map (Sample.point stop (tags event))).map Point.name =
      (samples config event stop).map Sample.name := by
    rw [List.map_map]
    rfl
  rw [hnames]
  refine ⟨stop, hstop, ?_, ?_, nodup_names_iff h hstop, ?_⟩
  · intro name
    simp only [List.mem_map, mem_samples_iff hstop]
  · intro a b ha hb
    constructor
    · exact eq_or_collide_of_name_eq h hstop ha hb
    · rintro (rfl | hcollide)
      · rfl
      · exact hcollide.name_eq
  · intro hdots
    exact (nodup_names_iff h hstop).mpr fun a b ha hb => not_collide_of_dotless hdots ha hb

/-- A breakdown of one entry. -/
def single (key : String) : Json :=
  .object [(ascii key, .object [(ascii "value", .number (.unsigned 1))])]

/-- An event with two breakdowns, each of one entry. -/
def partedAt (breakdown key breakdown' key' : String) : Json :=
  .object [(ascii "breakdowns", .object [(ascii breakdown, single key), (ascii breakdown', single key')]),
    (ascii "timestamp", .number (.unsigned 5))]

theorem inOrder_single (key : String) : (single key).InOrder := by
  simp [single, Json.inOrder_object, Ordered.Sorted, Json.InOrder.number]

theorem inOrder_partedAt {breakdown key breakdown' key' : String} (h : ascii breakdown < ascii breakdown') :
    (partedAt breakdown key breakdown' key').InOrder := by
  have htimestamp : ascii "breakdowns" < ascii "timestamp" := by decide
  simp [partedAt, Json.inOrder_object, Ordered.Sorted, Json.InOrder.number, inOrder_single, h, htimestamp]

/-- Breakdowns without dots keep their keys apart. -/
theorem names_of_points_dotless : ∃ points, points? {} (partedAt "a" "b.c" "ab" "c") = some points ∧
    (points.map Point.name).Nodup := by
  have hsome : (points? {} (partedAt "a" "b.c" "ab" "c")).isSome = true := by decide +kernel
  obtain ⟨points, hpoints⟩ := Option.isSome_iff_exists.mp hsome
  obtain ⟨stop, -, -, -, -, hdotless⟩ := names_of_points {} _ (inOrder_partedAt (by decide)) points hpoints
  refine ⟨points, hpoints, hdotless ?_⟩
  intro breakdowns hbreakdowns
  cases hbreakdowns
  decide

/-- **Two entries of different breakdowns can share a name.** -/
theorem shared_name_dotted : (partedAt "a" "b.c" "a.b" "c").InOrder ∧
    ∃ points, points? {} (partedAt "a" "b.c" "a.b" "c") = some points ∧
      points.map Point.name = [ascii "d:transactions/breakdowns.a.b.c@none",
        ascii "d:transactions/breakdowns.a.b.c@none"] ∧
      ¬(points.map Point.name).Nodup := by
  have hnames : (points? {} (partedAt "a" "b.c" "a.b" "c")).map (·.map Point.name) =
      some [ascii "d:transactions/breakdowns.a.b.c@none", ascii "d:transactions/breakdowns.a.b.c@none"] := by
    decide +kernel
  obtain ⟨points, hpoints, hsame⟩ := Option.map_eq_some_iff.mp hnames
  refine ⟨inOrder_partedAt (by decide), points, hpoints, hsame, ?_⟩
  rw [hsame]
  simp

end Telemetry.Transaction

import Mathlib.Data.Finset.Card
import Telemetry.Proofs.Bucket.Producers
import Telemetry.Proofs.Extraction.NormalForm
import Telemetry.Proofs.Ordered

/-!
# Which measurements stay

Folding keeps of the entries with a number whose names fold alike the one that comes first
(`get?_fold`), and the limit keeps the builtin ones and of the others the first few (`mem_limit_iff`).
Both go through the entries in the order of their names, so the first ones are the smallest ones
(`smallest_of_mem_fold`, `card_customs`).
-/

namespace Telemetry

namespace Measurements

variable {members entries : List (Bytes × Json)} {n : Bytes} {entry : Json} {rules : MeasurementRules}
  {room : Nat}

/-! ## Folding -/

/-- The entry has a number, and its name folds to the given one. -/
def FoldsTo (n : Bytes) (m : Bytes × Json) : Prop := Bytes.lower m.1 = n ∧ (number? m.2).isSome = true

instance (n : Bytes) : DecidablePred (FoldsTo n) := fun m =>
  inferInstanceAs (Decidable (Bytes.lower m.1 = n ∧ (number? m.2).isSome = true))

/-- The names to which entries with a number fold. -/
def names (members : List (Bytes × Json)) : Finset Bytes :=
  ((members.filter fun m => (number? m.2).isSome).map fun m => Bytes.lower m.1).toFinset

theorem mem_names : n ∈ names members ↔ ∃ m ∈ members, FoldsTo n m := by
  simp only [names, List.mem_toFinset, List.mem_map, List.mem_filter, FoldsTo, and_assoc]
  exact exists_congr fun m => and_congr_right fun _ => and_comm

/-- The entry is that of the smallest name among those that fold to the given one. -/
def Smallest (members : List (Bytes × Json)) (n : Bytes) (entry : Json) : Prop :=
  ∃ raw, (raw, entry) ∈ members ∧ FoldsTo n (raw, entry) ∧ ∀ m ∈ members, FoldsTo n m → ¬ m.1 < raw

theorem sorted_fold (members : List (Bytes × Json)) : Ordered.Sorted (fold members) := by
  refine List.foldlRecOn members _ Ordered.sorted_nil fun kept hkept m _ => ?_
  dsimp only
  split
  · exact hkept.insertNew
  · exact hkept

theorem get?_foldl_fold (n : Bytes) (members kept : List (Bytes × Json)) :
    Ordered.get? n (members.foldl (fun kept (name, entry) =>
      if (number? entry).isSome then Ordered.insertNew (Bytes.lower name) entry kept else kept) kept) =
      (Ordered.get? n kept).or ((members.find? (FoldsTo n ·)).map Prod.snd) := by
  induction members generalizing kept with
  | nil => rw [List.foldl_nil, List.find?_nil, Option.map_none, Option.or_none]
  | cons m rest ih =>
    obtain ⟨raw, entry⟩ := m
    rw [List.foldl_cons, ih, List.find?_cons]
    by_cases hnumber : (number? entry).isSome = true
    · dsimp only
      rw [if_pos hnumber, Ordered.get?_insertNew, Option.or_assoc]
      congr 1
      by_cases hfold : Bytes.lower raw = n
      · rw [if_pos hfold.symm, decide_eq_true (show FoldsTo n (raw, entry) from ⟨hfold, hnumber⟩)]
        rfl
      · rw [if_neg (Ne.symm hfold), decide_eq_false (show ¬ FoldsTo n (raw, entry) from fun h => hfold h.1),
          Option.none_or]
    · dsimp only
      rw [if_neg hnumber, decide_eq_false (show ¬ FoldsTo n (raw, entry) from fun h => hnumber h.2)]

theorem get?_fold (n : Bytes) (members : List (Bytes × Json)) :
    Ordered.get? n (fold members) = (members.find? (FoldsTo n ·)).map Prod.snd :=
  get?_foldl_fold n members []

theorem mem_keys_fold : n ∈ (fold members).map Prod.fst ↔ n ∈ names members := by
  rw [← Decidable.not_iff_not, ← Ordered.get?_eq_none_iff, get?_fold, Option.map_eq_none_iff,
    List.find?_eq_none, mem_names]
  simp

/-- What folding keeps for a name is the first entry that folds to it. -/
theorem find?_of_mem_fold (h : (n, entry) ∈ fold members) :
    ∃ raw, members.find? (FoldsTo n ·) = some (raw, entry) := by
  have hget := (sorted_fold members).get?_of_mem h
  rw [get?_fold] at hget
  obtain ⟨⟨raw, entry⟩, hfind, rfl⟩ := Option.map_eq_some_iff.mp hget
  exact ⟨raw, hfind⟩

/-- **Folding keeps the entry of the smallest name.** -/
theorem smallest_of_mem_fold (h : Ordered.Sorted members) (hmem : (n, entry) ∈ fold members) :
    Smallest members n entry := by
  obtain ⟨raw, hfind⟩ := find?_of_mem_fold hmem
  obtain ⟨hfolds, earlier, later, rfl, hearlier⟩ := List.find?_eq_some_iff_append.mp hfind
  refine ⟨raw, List.mem_append_right _ List.mem_cons_self, of_decide_eq_true hfolds, fun m hm hm' hlt => ?_⟩
  obtain ⟨-, htail, -⟩ := List.pairwise_append.mp h
  rcases List.mem_append.mp hm with hm | hm
  · have hnot := hearlier m hm
    rw [decide_eq_true hm'] at hnot
    cases hnot
  · rcases List.mem_cons.mp hm with rfl | hm
    · exact Std.Asymm.asymm _ _ hlt hlt
    · exact Std.Asymm.asymm _ _ hlt ((List.pairwise_cons.mp htail).1 m hm)

/-! ## The limit -/

/-- The project does not know the name. -/
def Custom (rules : MeasurementRules) (n : Bytes) : Prop := builtin? rules n = none

instance (rules : MeasurementRules) : DecidablePred (Custom rules) := fun n =>
  inferInstanceAs (Decidable (builtin? rules n = none))

theorem custom_iff : Custom rules n ↔ ¬ (builtin? rules n).isSome = true :=
  Option.not_isSome_iff_eq_none.symm

/-- How many custom names come before another. -/
def customBefore (rules : MeasurementRules) (n : Bytes) (entries : List (Bytes × Json)) : Nat :=
  entries.countP fun m => Custom rules m.1 ∧ m.1 < n

/-- **The limit keeps a custom entry if there is room after those before it**, and every other one. -/
theorem mem_limit_iff {e : Bytes × Json} (h : Ordered.Sorted entries) : e ∈ limit rules room entries ↔
    e ∈ entries ∧ (Custom rules e.1 → customBefore rules e.1 entries < room) := by
  fun_induction limit rules room entries with
  | case1 => simp
  | case2 room name entry rest hbuiltin ih =>
    obtain ⟨-, hrest⟩ := List.pairwise_cons.mp h
    have hcustom : ¬ Custom rules name := fun hcustom => custom_iff.mp hcustom hbuiltin
    have hbefore : customBefore rules e.1 ((name, entry) :: rest) = customBefore rules e.1 rest :=
      List.countP_cons_of_neg (by simp [hcustom])
    rw [List.mem_cons, List.mem_cons, ih hrest, hbefore, or_and_right]
    refine or_congr_left (iff_self_and.mpr ?_)
    rintro rfl hcustom'
    exact absurd hcustom' hcustom
  | case3 name entry rest hcustom ih =>
    obtain ⟨-, hrest⟩ := List.pairwise_cons.mp h
    simp only [ih hrest, Nat.not_lt_zero, imp_false, List.mem_cons, or_and_right]
    refine (or_iff_right ?_).symm
    rintro ⟨rfl, hnot⟩
    exact hnot (custom_iff.mpr hcustom)
  | case4 name entry rest hcustom room ih =>
    obtain ⟨hhead, hrest⟩ := List.pairwise_cons.mp h
    replace hcustom := custom_iff.mpr hcustom
    rw [List.mem_cons, List.mem_cons, ih hrest, or_and_right]
    refine or_congr (iff_self_and.mpr ?_) (and_congr_right fun hmem => forall_congr' fun _ => ?_)
    · -- nothing comes before the first entry
      rintro rfl -
      refine Nat.lt_of_le_of_lt (Nat.le_of_eq (List.countP_eq_zero.mpr fun m hm => ?_)) (Nat.succ_pos room)
      rw [decide_eq_true_iff, not_and]
      rintro - hlt
      rcases List.mem_cons.mp hm with rfl | hm
      · exact Std.Asymm.asymm _ _ hlt hlt
      · exact Std.Asymm.asymm _ _ hlt (hhead m hm)
    · have hbefore : customBefore rules e.1 ((name, entry) :: rest) = customBefore rules e.1 rest + 1 :=
        List.countP_cons_of_pos (decide_eq_true ⟨hcustom, hhead e hmem⟩)
      rw [hbefore, Nat.add_lt_add_iff_right]

/-- No more custom entries stay than there is room for. -/
theorem countP_limit_le (rules : MeasurementRules) (room : Nat) (entries : List (Bytes × Json)) :
    (limit rules room entries).countP (fun m => Custom rules m.1) ≤ room := by
  fun_induction limit rules room entries with
  | case1 => exact Nat.zero_le _
  | case2 room name entry rest hbuiltin ih =>
    rwa [List.countP_cons_of_neg]
    exact fun hcustom => custom_iff.mp (of_decide_eq_true hcustom) hbuiltin
  | case3 name entry rest hcustom ih => exact ih
  | case4 name entry rest hcustom room ih =>
    rw [List.countP_cons_of_pos]
    · exact Nat.succ_le_succ ih
    · exact decide_eq_true (custom_iff.mpr hcustom)

/-! ## What stays -/

/-- The custom names to which entries with a number fold. -/
def customs (rules : MeasurementRules) (members : List (Bytes × Json)) : Finset Bytes :=
  (names members).filter (Custom rules)

/-- The name is among as many smallest custom names as a project allows, or it is no custom name. -/
def Stays (rules : Option MeasurementRules) (members : List (Bytes × Json)) (n : Bytes) : Prop :=
  ∀ r ∈ rules, Custom r n → ((customs r members).filter (· < n)).card < r.maxCustom.toNat

theorem card_customs (rules : MeasurementRules) (members : List (Bytes × Json)) (n : Bytes) :
    ((customs rules members).filter (· < n)).card = customBefore rules n (fold members) := by
  have heq : (customs rules members).filter (· < n) =
      (((fold members).filter fun m => Custom rules m.1 ∧ m.1 < n).map Prod.fst).toFinset := by
    ext name
    simp only [customs, Finset.mem_filter, ← mem_keys_fold, List.mem_toFinset, List.mem_map,
      List.mem_filter, decide_eq_true_eq]
    constructor
    · rintro ⟨⟨⟨m, hm, rfl⟩, hcustom⟩, hlt⟩
      exact ⟨m, ⟨hm, hcustom, hlt⟩, rfl⟩
    · rintro ⟨m, ⟨hm, hcustom, hlt⟩, rfl⟩
      exact ⟨⟨⟨m, hm, rfl⟩, hcustom⟩, hlt⟩
  rw [heq, List.toFinset_card_of_nodup, List.length_map, customBefore, List.countP_eq_length_filter]
  exact (List.filter_sublist.map Prod.fst).nodup (sorted_fold members).nodup_keys

theorem sorted_keep (rules : Option MeasurementRules) (members : List (Bytes × Json)) :
    Ordered.Sorted (keep rules members) := by
  cases rules with
  | none => exact sorted_fold members
  | some rules => exact (sorted_fold members).sublist (limit_sublist rules _ _)

theorem keep_subset (rules : Option MeasurementRules) (members : List (Bytes × Json)) :
    keep rules members ⊆ fold members := by
  cases rules with
  | none => exact List.Subset.refl _
  | some rules => exact (limit_sublist rules _ _).subset

theorem mem_keys_keep (rules : Option MeasurementRules) (members : List (Bytes × Json)) (n : Bytes) :
    n ∈ (keep rules members).map Prod.fst ↔ n ∈ names members ∧ Stays rules members n := by
  rw [← mem_keys_fold]
  cases rules with
  | none => exact (and_iff_left nofun).symm
  | some rules =>
    simp only [keep, List.mem_map, mem_limit_iff (sorted_fold members), Stays, Option.mem_some_iff,
      forall_eq', card_customs]
    constructor
    · rintro ⟨e, ⟨hmem, hroom⟩, rfl⟩
      exact ⟨⟨e, hmem, rfl⟩, hroom⟩
    · rintro ⟨⟨e, hmem, rfl⟩, hroom⟩
      exact ⟨e, ⟨hmem, hroom⟩, rfl⟩

theorem cap_get? {event : Json} (rules : Option MeasurementRules)
    (h : event.get? (ascii "measurements") = some (.object members)) :
    (cap rules event).1.get? (ascii "measurements") = some (.object (keep rules members)) := by
  rw [cap, h]
  exact Json.get?_set_self (Json.isSome_object?_of_get? h) _ _

/-- Measurements that are no object are removed. -/
theorem cap_get?_of_not_object {event : Json} (rules : Option MeasurementRules)
    (h : ∀ members, event.get? (ascii "measurements") ≠ some (.object members)) :
    (cap rules event).1.get? (ascii "measurements") = none := by
  unfold cap
  split
  · assumption
  · next members hmembers => exact absurd hmembers (h members)
  · cases event with
    | object fields => exact Ordered.get?_erase_self _ fields
    | _ => rfl

end Measurements

/-! ## Extraction -/

namespace Transaction

open Measurements

variable {event : Json} {rules : MeasurementRules} {name name' unit unit' : Bytes}

/-- The full name of a measurement. -/
def measurementName (n unit : Bytes) : Bytes := fullName (ascii "measurements." ++ n) unit

/-- A valid name has one at-sign. -/
theorem at_not_mem_of_parse? (h : (Identifier.parse? (fullName name unit)).isSome = true) :
    byte '@' ∉ name := by
  obtain ⟨m, hm, htext, -⟩ := names_fullName h
  obtain ⟨hspace, hname, hunit⟩ := Identifier.valid_iff.mp (Identifier.valid_of_parse? hm)
  have hnotname : byte '@' ∉ m.name := fun hmem => absurd (Identifier.validName_mem hname hmem) (by decide)
  have hcount := congrArg (List.count (byte '@')) htext
  have hprefix : List.count (byte '@') (ascii "d:transactions/") = 0 := by decide
  have hletter : (m.kind.letter == byte '@') = false := by cases m.kind <;> rfl
  have hcolon : (byte ':' == byte '@') = false := by decide
  have hslash : (byte '/' == byte '@') = false := by decide
  simp only [Identifier.text, fullName, List.count_append, List.count_cons, beq_self_eq_true, hprefix,
    hletter, hcolon, hslash, List.count_eq_zero_of_not_mem hnotname,
    List.count_eq_zero_of_not_mem (Identifier.at_not_mem_space hspace),
    List.count_eq_zero_of_not_mem (Identifier.at_not_mem_unit hunit), if_true, Bool.false_eq_true,
    if_false] at hcount
  exact List.count_eq_zero.mp (by omega)

theorem cut?_of_parse? (h : (Identifier.parse? (fullName name unit)).isSome = true) :
    Bytes.cut? (byte '@') (name ++ byte '@' :: unit) = some (name, unit) :=
  Bytes.cut?_eq_some_iff.mpr ⟨rfl, at_not_mem_of_parse? h⟩

/-- A valid name was joined in one way. -/
theorem eq_of_fullName_eq (h : (Identifier.parse? (fullName name unit)).isSome = true)
    (heq : fullName name unit = fullName name' unit') : name = name' := by
  have hcut := cut?_of_parse? h
  have hcut' := cut?_of_parse? (heq ▸ h)
  simp only [fullName, List.append_assoc, List.append_cancel_left_eq] at heq
  rw [heq, hcut'] at hcut
  exact (Prod.mk.inj (Option.some.inj hcut)).1.symm

variable {config : Config} {points : List (Point Float)}

/-- The readings of an event that has points. -/
theorem exists_readings (h : points? config event = some points) :
    ∃ stop, Event.timeAt? event "timestamp" = some stop ∧ points = ((duration? event stop).toList ++
      (measurements config.measurements event ++ breakdowns event).filter Reading.named).map fun r =>
        ⟨r.name, .distribution [r.value], Binary64.toWord stop, tags event⟩ := by
  obtain ⟨_, -, h⟩ := Option.bind_eq_some_iff.mp h
  obtain ⟨_, -, h⟩ := Option.bind_eq_some_iff.mp h
  obtain ⟨stop, hstop, h⟩ := Option.bind_eq_some_iff.mp h
  exact ⟨stop, hstop, (Option.some.inj h).symm⟩

/-- A point that is named as a measurement is one. -/
theorem mem_keys_of_mem_points {p : Point Float} {n : Bytes} (h : points? config event = some points)
    (hp : p ∈ points) (hname : p.name = measurementName n unit) :
    n ∈ (membersAt event "measurements").map Prod.fst := by
  obtain ⟨m, hm, -, -⟩ := (canonical_of_points? h p hp).named
  have hvalid : (Identifier.parse? (measurementName n unit)).isSome = true := by
    rw [← hname, hm]
    rfl
  obtain ⟨stop, -, rfl⟩ := exists_readings h
  obtain ⟨r, hr, rfl⟩ := List.mem_map.mp hp
  change r.name = _ at hname
  -- the names of durations and breakdowns begin with another letter
  rcases List.mem_append.mp hr with hr | hr
  · unfold duration? at hr
    split at hr
    · split at hr
      · obtain rfl := List.mem_singleton.mp hr
        have heq : some (byte 'm') = some (byte 'd') :=
          congrArg List.head? (eq_of_fullName_eq hvalid hname.symm)
        exact absurd heq (by decide)
      · cases hr
    · cases hr
  · rcases List.mem_append.mp (List.mem_filter.mp hr).1 with hr | hr
    · obtain ⟨⟨n', entry⟩, hmem, hr⟩ := List.mem_filterMap.mp hr
      obtain ⟨x, -, rfl⟩ := Option.map_eq_some_iff.mp hr
      have heq := List.append_cancel_left (eq_of_fullName_eq hvalid hname.symm)
      exact List.mem_map.mpr ⟨_, hmem, heq.symm⟩
    · obtain ⟨name, unit', hbreakdown⟩ := prefix_of_mem_breakdowns hr
      have heq : some (byte 'm') = some (byte 'b') :=
        congrArg List.head? (eq_of_fullName_eq hvalid (hname.symm.trans hbreakdown))
      exact absurd heq (by decide)

/-- A measurement with a valid name is a point. -/
theorem exists_point_of_mem {n : Bytes} {entry : Json} {x : Float} (h : points? config event = some points)
    (hmem : (n, entry) ∈ membersAt event "measurements") (hx : number? entry = some x)
    (hvalid : (Identifier.parse? (measurementName n
      (unitOr (defaultUnit config.measurements n) entry))).isSome = true) :
    ∃ p ∈ points, p.name = measurementName n (unitOr (defaultUnit config.measurements n) entry) ∧
      p.value = .distribution [x] := by
  obtain ⟨stop, -, rfl⟩ := exists_readings h
  let r : Reading := ⟨measurementName n (unitOr (defaultUnit config.measurements n) entry), x⟩
  have hr : r ∈ measurements config.measurements event :=
    List.mem_filterMap.mpr ⟨_, hmem, congrArg (Option.map _) hx⟩
  have hnamed : r ∈ (measurements config.measurements event ++ breakdowns event).filter Reading.named :=
    List.mem_filter.mpr ⟨List.mem_append_left _ hr, hvalid⟩
  exact ⟨_, List.mem_map_of_mem (List.mem_append_right _ hnamed), rfl, rfl⟩

/-- The measurements of the normal form are those that stay. -/
theorem membersAt_normalize (config : Config) (event : Json) :
    membersAt (normalize config event) "measurements" =
      match event.get? (ascii "measurements") with
      | some (.object members) => keep config.measurements members
      | _ => [] := by
  have hget := (Breakdowns.compute_agrees config.breakdowns (cap config.measurements event).1).get?
    (ascii "measurements") (by decide)
  unfold membersAt normalize
  rw [hget]
  split
  · next members hmembers =>
    rw [cap_get? _ hmembers]
    rfl
  · next hnot =>
    rw [cap_get?_of_not_object _ fun members hmembers => hnot members hmembers]
    rfl

end Transaction

namespace Extraction

open Measurements Transaction

variable {config : Config} {item : Item} {event : Json} {r : Result} {rules : MeasurementRules}

/-- What is extracted are the points of the normal form. -/
theorem points_of_transaction (h : transaction config item event = .ok r) (hr : r.decision = .extracted) :
    points? config (normalize config event) = some r.points := by
  unfold transaction at h
  split at h
  · next decision hcheck =>
    cases h
    exact absurd hr (precheck?_ne_extracted hcheck)
  · dsimp only at h
    split at h
    · next points hpoints =>
      split at h
      · cases h
        exact hpoints
      · cases h
    · cases h
      cases hr

theorem custom_extracted_le (h : transaction config item event = .ok r) (hr : r.decision = .extracted)
    (hrules : config.measurements = some rules) {s : Finset Bytes}
    (hs : ∀ n ∈ s, Custom rules n ∧ ∃ p ∈ r.points, ∃ unit, p.name = measurementName n unit) :
    s.card ≤ rules.maxCustom.toNat := by
  have hpoints := points_of_transaction h hr
  have hkeys : ∀ n ∈ s, n ∈ (membersAt (normalize config event) "measurements").map Prod.fst := by
    intro n hn
    obtain ⟨-, p, hp, unit, hname⟩ := hs n hn
    exact mem_keys_of_mem_points hpoints hp hname
  rw [membersAt_normalize] at hkeys
  split at hkeys
  · next members hmembers =>
    rw [hrules, keep] at hkeys
    refine le_trans ?_ (countP_limit_le rules rules.maxCustom.toNat (fold members))
    rw [List.countP_eq_length_filter, ← List.length_map Prod.fst]
    refine le_trans (Finset.card_le_card fun n hn => ?_) (List.toFinset_card_le _)
    obtain ⟨e, he, rfl⟩ := List.mem_map.mp (hkeys n hn)
    exact List.mem_toFinset.mpr (List.mem_map_of_mem (List.mem_filter.mpr ⟨he, decide_eq_true (hs _ hn).1⟩))
  · -- without measurements there are no such names
    have hempty : s = ∅ := Finset.eq_empty_of_forall_notMem fun n hn => by cases hkeys n hn
    rw [hempty, Finset.card_empty]
    exact Nat.zero_le _

theorem builtin_extracted {members : List (Bytes × Json)} {n : Bytes}
    (h : transaction config item event = .ok r) (hr : r.decision = .extracted)
    (hmembers : event.get? (ascii "measurements") = some (.object members)) (hsorted : Ordered.Sorted members)
    (hn : n ∈ names members) (hstays : Stays config.measurements members n) :
    ∃ entry x, Smallest members n entry ∧ number? entry = some x ∧
      ((Identifier.parse? (measurementName n
        (unitOr (defaultUnit config.measurements n) entry))).isSome = true →
        ∃ p ∈ r.points, p.name = measurementName n (unitOr (defaultUnit config.measurements n) entry) ∧
          p.value = .distribution [x]) := by
  have hkey := (mem_keys_keep config.measurements members n).mpr ⟨hn, hstays⟩
  obtain ⟨⟨_, entry⟩, hmem, rfl⟩ := List.mem_map.mp hkey
  have hsmallest := smallest_of_mem_fold hsorted (keep_subset _ _ hmem)
  obtain ⟨raw, -, ⟨-, hnumber⟩, -⟩ := id hsmallest
  obtain ⟨x, hx⟩ := Option.isSome_iff_exists.mp hnumber
  refine ⟨entry, x, hsmallest, hx, exists_point_of_mem (points_of_transaction h hr) ?_ hx⟩
  rw [membersAt_normalize, hmembers]
  exact hmem

/-- **The limit on measurements keeps the right ones.**  The names that stay are those to which an entry with
a number folds, if they are builtin or among as many smallest custom ones as the project allows; each has
the entry of the smallest name that folds to it.  So no more custom names are extracted than are allowed,
and every builtin one is that has a number and a valid name. -/
theorem measurements_limited :
    (∀ (rules : Option MeasurementRules) (event : Json) (members : List (Bytes × Json)),
      event.get? (ascii "measurements") = some (.object members) → Ordered.Sorted members →
      ∃ kept, (cap rules event).1.get? (ascii "measurements") = some (.object kept) ∧ Ordered.Sorted kept ∧
        (∀ n, n ∈ kept.map Prod.fst ↔ n ∈ names members ∧ Stays rules members n) ∧
        ∀ n entry, (n, entry) ∈ kept → Smallest members n entry) ∧
    ∀ (config : Config) (item : Item) (event : Json) (r : Result) (rules : MeasurementRules),
      transaction config item event = .ok r → r.decision = .extracted → config.measurements = some rules →
      (∀ s : Finset Bytes,
        (∀ n ∈ s, Custom rules n ∧ ∃ p ∈ r.points, ∃ unit, p.name = measurementName n unit) →
        s.card ≤ rules.maxCustom.toNat) ∧
      ∀ members, event.get? (ascii "measurements") = some (.object members) → Ordered.Sorted members →
        ∀ n ∈ names members, ¬ Custom rules n →
        ∃ entry x, Smallest members n entry ∧ number? entry = some x ∧
          ((Identifier.parse? (measurementName n (unitOr (defaultUnit (some rules) n) entry))).isSome = true →
            ∃ p ∈ r.points, p.name = measurementName n (unitOr (defaultUnit (some rules) n) entry) ∧
              p.value = .distribution [x]) := by
  refine ⟨fun rules event members hmembers hsorted => ?_, fun config item event r rules h hr hrules =>
    ⟨fun s hs => custom_extracted_le h hr hrules hs, fun members hmembers hsorted n hn hbuiltin => ?_⟩⟩
  · exact ⟨keep rules members, cap_get? rules hmembers, sorted_keep rules members,
      mem_keys_keep rules members, fun n entry hmem =>
        smallest_of_mem_fold hsorted (keep_subset rules members hmem)⟩
  · have hstays : Stays config.measurements members n := by
      rw [hrules]
      rintro _ ⟨⟩ hcustom
      exact absurd hcustom hbuiltin
    have hextracted := builtin_extracted h hr hmembers hsorted hn hstays
    rwa [hrules] at hextracted

/-- Of two custom names the one that is smaller after folding stays, with room for one, and a builtin name
in capitals is extracted with the unit that the project gives it. -/
theorem measurements_limited_folded_names :
    let entry := fun x : UInt64 => Json.object [(ascii "value", .number (.unsigned x))]
    let members := [(ascii "B", entry 1), (ascii "FCP", entry 2), (ascii "a", entry 3)]
    let event := Json.object
      [(ascii "measurements", .object members), (ascii "timestamp", .number (.unsigned 5))]
    let rules : MeasurementRules := ⟨[⟨ascii "fcp", ascii "second"⟩], 1⟩
    let config : Config := { transactionVersion := some 1, measurements := some rules }
    (∃ kept, (cap (some rules) event).1.get? (ascii "measurements") = some (.object kept) ∧
      Ordered.Sorted kept ∧ ascii "a" ∈ kept.map Prod.fst ∧ ascii "b" ∉ kept.map Prod.fst ∧
      ∀ n entry, (n, entry) ∈ kept → Smallest members n entry) ∧
    ∃ item r, transaction config item event = .ok r ∧ r.decision = .extracted ∧
      (∀ s : Finset Bytes,
        (∀ n ∈ s, Custom rules n ∧ ∃ p ∈ r.points, ∃ unit, p.name = measurementName n unit) → s.card ≤ 1) ∧
      ∃ p ∈ r.points, p.name = ascii "d:transactions/measurements.fcp@second" := by
  intro entry members event rules config
  obtain ⟨hcap, hextracts⟩ := measurements_limited
  have hsorted : Ordered.Sorted members := by decide
  constructor
  · obtain ⟨kept, hget, hkept, hkeys, hsmallest⟩ := hcap (some rules) event members rfl hsorted
    refine ⟨kept, hget, hkept, (hkeys _).mpr ⟨by decide +kernel, ?_⟩, fun hb => ?_, hsmallest⟩
    · rintro _ ⟨⟩ -
      decide +kernel
    · exact absurd (((hkeys _).mp hb).2 rules rfl rfl) (by decide +kernel)
  · let item : Item := ⟨.transaction, [], false⟩
    have hdecision : (transaction config item event).toOption.map (·.decision) = some .extracted := by
      decide +kernel
    obtain ⟨r, h, hr⟩ := Option.map_eq_some_iff.mp hdecision
    replace h := toOption_eq_some.mp h
    obtain ⟨hcustom, hbuiltin⟩ := hextracts config item event r rules h hr rfl
    obtain ⟨e, x, ⟨raw, hmem, ⟨hfold, -⟩, -⟩, hx, hpoint⟩ :=
      hbuiltin members rfl hsorted (ascii "fcp") (by decide +kernel) (by decide +kernel)
    refine ⟨item, r, h, hr, hcustom, ?_⟩
    rcases List.mem_cons.mp hmem with heq | hmem
    · cases heq
      exact absurd hfold (by decide)
    · rcases List.mem_cons.mp hmem with heq | hmem
      · cases heq
        obtain ⟨p, hp, hname, -⟩ := hpoint (by decide +kernel)
        exact ⟨p, hp, hname⟩
      · cases List.mem_singleton.mp hmem
        exact absurd hfold (by decide)

end Extraction

end Telemetry

import Telemetry.Proofs.Transaction.Measurements

/-!
# How many measurements are dropped

An entry of the measurements does not stay if it has no number, if another one takes its folded name
(`Shadowed`), or if its name is over the limit (`overflow`).  The first and the last are counted as dropped,
the second are not: `cap_counts` says what the count leaves out.
-/

namespace Telemetry.Measurements

variable {members entries : List (Bytes × Json)} {n : Bytes} {m : Bytes × Json} {event : Json}

/-! ## Names and entries -/

/-- The entry has a number. -/
def Numbered (m : Bytes × Json) : Prop := (number? m.2).isSome = true

instance : DecidablePred Numbered := fun m => inferInstanceAs (Decidable ((number? m.2).isSome = true))

theorem toFinset_keys_fold (members : List (Bytes × Json)) :
    ((fold members).map Prod.fst).toFinset = names members := by
  ext n
  rw [List.mem_toFinset, mem_keys_fold]

theorem length_fold (members : List (Bytes × Json)) : (fold members).length = (names members).card := by
  rw [← toFinset_keys_fold, List.toFinset_card_of_nodup (sorted_fold members).nodup_keys, List.length_map]

theorem countP_custom_fold (rules : MeasurementRules) (members : List (Bytes × Json)) :
    (fold members).countP (fun m => Custom rules m.1) = (customs rules members).card := by
  have hcustoms : customs rules members =
      (((fold members).map Prod.fst).filter fun n => Custom rules n).toFinset := by
    rw [customs, ← toFinset_keys_fold, List.toFinset_filter]
    simp
  rw [hcustoms, List.toFinset_card_of_nodup ((sorted_fold members).nodup_keys.filter _),
    ← List.countP_eq_length_filter, List.countP_map]
  rfl

/-! ## Over the limit -/

/-- How many custom names a project has no room for. -/
def overflow (rules : Option MeasurementRules) (members : List (Bytes × Json)) : Nat :=
  match rules with
  | some rules => (customs rules members).card - rules.maxCustom.toNat
  | none => 0

/-- The limit takes away the custom entries that there is no room for. -/
theorem length_limit (rules : MeasurementRules) (room : Nat) (entries : List (Bytes × Json)) :
    (limit rules room entries).length + (entries.countP (fun m => Custom rules m.1) - room) =
      entries.length := by
  fun_induction limit rules room entries with
  | case1 room => simp
  | case2 room name entry rest hbuiltin ih =>
    rw [List.countP_cons_of_neg, List.length_cons, List.length_cons]
    · omega
    · exact fun hcustom => custom_iff.mp (of_decide_eq_true hcustom) hbuiltin
  | case3 name entry rest hcustom ih =>
    rw [List.countP_cons_of_pos, List.length_cons]
    · omega
    · exact decide_eq_true (custom_iff.mpr hcustom)
  | case4 name entry rest hcustom room ih =>
    rw [List.countP_cons_of_pos, List.length_cons, List.length_cons]
    · omega
    · exact decide_eq_true (custom_iff.mpr hcustom)

theorem length_keep (rules : Option MeasurementRules) (members : List (Bytes × Json)) :
    (keep rules members).length + overflow rules members = (names members).card := by
  cases rules with
  | none => exact length_fold members
  | some rules => rw [keep, overflow, ← countP_custom_fold, length_limit, length_fold]

theorem dropped_eq_countP (rules : Option MeasurementRules) (members : List (Bytes × Json)) :
    dropped rules members = members.countP (fun m => (number? m.2).isNone) +
      ((fold members).length - (keep rules members).length) := rfl

/-- What is counted are the entries without a number and the names over the limit. -/
theorem dropped_eq (rules : Option MeasurementRules) (members : List (Bytes × Json)) :
    dropped rules members = members.countP (fun m => ¬ Numbered m) + overflow rules members := by
  have hkeep := length_keep rules members
  have hnumber : members.countP (fun m => (number? m.2).isNone) = members.countP fun m => ¬ Numbered m := by
    congr 1
    funext m
    cases h : number? m.2 <;> simp [Numbered, h]
  rw [dropped_eq_countP, length_fold, hnumber]
  omega

/-! ## Folded onto another name -/

/-- A smaller name that folds alike takes the place of the entry. -/
def Shadowed (members : List (Bytes × Json)) (m : Bytes × Json) : Prop :=
  Numbered m ∧ ∃ m' ∈ members, m'.1 < m.1 ∧ FoldsTo (Bytes.lower m.1) m'

instance (members : List (Bytes × Json)) : DecidablePred (Shadowed members) := fun m =>
  inferInstanceAs (Decidable (Numbered m ∧ ∃ m' ∈ members, m'.1 < m.1 ∧ FoldsTo (Bytes.lower m.1) m'))

/-- The entries with a number that are the first ones to fold to their names. -/
def leaders (members : List (Bytes × Json)) : List (Bytes × Json) :=
  (members.filter fun m => Numbered m).filter fun m => ¬ Shadowed members m

theorem mem_leaders : m ∈ leaders members ↔ m ∈ members ∧ Numbered m ∧ ¬ Shadowed members m := by
  simp only [leaders, List.mem_filter, decide_eq_true_eq, and_assoc]

/-- Each name to which entries with a number fold has one leader. -/
theorem nodup_leaders (h : Ordered.Sorted members) :
    ((leaders members).map fun m => Bytes.lower m.1).Nodup := by
  have hleaders : (leaders members).Pairwise fun m m' => m.1 < m'.1 :=
    h.sublist (List.filter_sublist.trans List.filter_sublist)
  refine List.pairwise_map.mpr (hleaders.imp_of_mem fun {m m'} hm hm' hlt heq => ?_)
  obtain ⟨hmem, hnumber, -⟩ := mem_leaders.mp hm
  obtain ⟨-, hnumber', hnot⟩ := mem_leaders.mp hm'
  exact hnot ⟨hnumber', m, hmem, hlt, heq, hnumber⟩

theorem toFinset_leaders (h : Ordered.Sorted members) :
    ((leaders members).map fun m => Bytes.lower m.1).toFinset = names members := by
  ext n
  rw [List.mem_toFinset, List.mem_map, ← mem_keys_fold, List.mem_map]
  constructor
  · rintro ⟨m, hm, rfl⟩
    obtain ⟨hmem, hnumber, -⟩ := mem_leaders.mp hm
    exact List.mem_map.mp (mem_keys_fold.mpr (mem_names.mpr ⟨m, hmem, rfl, hnumber⟩))
  · rintro ⟨⟨n, entry⟩, hmem, rfl⟩
    obtain ⟨raw, hraw, ⟨hfold, hnumber⟩, hleast⟩ := smallest_of_mem_fold h hmem
    refine ⟨(raw, entry), mem_leaders.mpr ⟨hraw, hnumber, ?_⟩, hfold⟩
    rintro ⟨-, m', hm', hlt, hfold', hnumber'⟩
    exact hleast m' hm' ⟨hfold'.trans hfold, hnumber'⟩ hlt

theorem card_names_add_shadowed (h : Ordered.Sorted members) :
    (names members).card + members.countP (fun m => Shadowed members m) =
      members.countP fun m => Numbered m := by
  have hleaders : (leaders members).length = (names members).card := by
    rw [← toFinset_leaders h, List.toFinset_card_of_nodup (nodup_leaders h), List.length_map]
  have hshadowed : ((members.filter fun m => Numbered m).countP fun m => Shadowed members m) =
      members.countP fun m => Shadowed members m := by
    rw [List.countP_filter]
    congr 1
    funext m
    simpa using fun h : Shadowed members m => h.1
  have hsplit := List.length_eq_countP_add_countP (fun m => decide (Shadowed members m))
    (l := members.filter fun m => Numbered m)
  rw [leaders, ← List.countP_eq_length_filter] at hleaders
  rw [← List.countP_eq_length_filter, hshadowed] at hsplit
  simp only [decide_eq_true_eq, decide_not] at hsplit hleaders ⊢
  omega

/-- **Entries that another name takes the place of are not counted as dropped.**  Every other entry that
does not stay is counted once, so what is counted and what stays make up all entries only if no two entries
with a number fold alike. -/
theorem cap_counts (rules : Option MeasurementRules)
    (h : event.get? (ascii "measurements") = some (.object members)) (hsorted : Ordered.Sorted members) :
    ∃ kept, (cap rules event).1.get? (ascii "measurements") = some (.object kept) ∧
      (cap rules event).2 = members.countP (fun m => ¬ Numbered m) + overflow rules members ∧
      kept.length + overflow rules members = (names members).card ∧
      (cap rules event).2 + kept.length + members.countP (fun m => Shadowed members m) = members.length ∧
      ((cap rules event).2 + kept.length = members.length ↔ ∀ m ∈ members, ¬ Shadowed members m) := by
  have hcount : (cap rules event).2 = dropped rules members := by rw [cap, h]
  have hkeep := length_keep rules members
  have hnames := card_names_add_shadowed hsorted
  have hall := List.length_eq_countP_add_countP (fun m => decide (Numbered m)) (l := members)
  have htotal : dropped rules members + (keep rules members).length +
      members.countP (fun m => Shadowed members m) = members.length := by
    simp only [dropped_eq, decide_eq_true_eq] at hall ⊢
    omega
  refine ⟨keep rules members, cap_get? rules h, ?_, hkeep, ?_, ?_⟩
  · rw [hcount, dropped_eq]
  · rw [hcount, htotal]
  · have hnone : members.countP (fun m => Shadowed members m) = 0 ↔ ∀ m ∈ members, ¬ Shadowed members m := by
      simp
    rw [hcount, ← hnone]
    omega

/-- Of five entries one has no number, one is shadowed, two are over the limit and one stays. -/
theorem cap_counts_mixed :
    let entry := fun x : UInt64 => Json.object [(ascii "value", .number (.unsigned x))]
    let members := [(ascii "A", entry 1), (ascii "B", entry 2), (ascii "a", entry 3), (ascii "c", .null),
      (ascii "d", entry 4)]
    let event := Json.object [(ascii "measurements", .object members)]
    let rules : MeasurementRules := ⟨[], 1⟩
    (cap (some rules) event).2 = 3 ∧
      ∃ kept, (cap (some rules) event).1.get? (ascii "measurements") = some (.object kept) ∧
        3 + kept.length + 1 = 5 ∧ 3 + kept.length ≠ 5 := by
  intro entry members event rules
  have hmembers : event.get? (ascii "measurements") = some (.object members) := rfl
  obtain ⟨kept, hkept, hcount, -, htotal, hiff⟩ := cap_counts (some rules) hmembers (by decide)
  have hthree : (cap (some rules) event).2 = 3 := by
    rw [hcount]
    decide +kernel
  have hone : members.countP (fun m => Shadowed members m) = 1 := by decide +kernel
  rw [hthree] at hiff
  rw [hthree, hone] at htotal
  refine ⟨hthree, kept, hkept, htotal, fun hall => ?_⟩
  exact hiff.mp hall (ascii "a", entry 3) (by simp [members]) (by decide +kernel)

/-- Two entries that fold to one name: one stays and none is counted. -/
theorem folded_not_counted :
    let entry := fun x : UInt64 => Json.object [(ascii "value", .number (.unsigned x))]
    let members := [(ascii "A", entry 1), (ascii "a", entry 2)]
    let event := Json.object [(ascii "measurements", .object members)]
    event.get? (ascii "measurements") = some (.object members) ∧
      ∃ kept, (cap none event).1.get? (ascii "measurements") = some (.object kept) ∧
        (cap none event).2 + kept.length ≠ members.length := by
  intro entry members event
  exact ⟨rfl, keep none members, cap_get? none rfl, by decide +kernel⟩

end Telemetry.Measurements

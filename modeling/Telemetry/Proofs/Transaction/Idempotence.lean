import Mathlib.Data.List.Find
import Telemetry.Proofs.Json.InOrder
import Telemetry.Proofs.Transaction.Breakdowns
import Telemetry.Proofs.Transaction.Dropped

/-!
# Normalising twice

Measurements that were capped are what capping leaves alone (`Capped`): their names are folded, they have
numbers, and the custom ones are no more than the limit.  Breakdowns are written by insertions that do not
depend on what is written (`foldl_write_eq`), so to repeat them changes nothing.  The normal form of an
event is therefore its own normal form, with no measurement dropped.
-/

namespace Telemetry

namespace Bytes

theorem lowerByte_lowerByte (b : UInt8) : lowerByte (lowerByte b) = lowerByte b := by
  unfold lowerByte
  split
  · next h =>
    -- a small letter is no capital one
    refine if_neg fun hupper => ?_
    simp only [isUpper, Bool.and_eq_true, decide_eq_true_eq, UInt8.le_iff_toNat_le,
      UInt8.toNat_add] at h hupper
    change 65 ≤ b.toNat ∧ b.toNat ≤ 90 at h
    change 65 ≤ (b.toNat + 32) % 256 ∧ (b.toNat + 32) % 256 ≤ 90 at hupper
    omega
  · rfl

/-- Folding twice is folding once. -/
theorem lower_lower (s : Bytes) : lower (lower s) = lower s := by
  unfold lower
  rw [List.map_map]
  exact List.map_congr_left fun b _ => lowerByte_lowerByte b

end Bytes

/-! ## Measurements -/

namespace Measurements

variable {rules : Option MeasurementRules} {members : List (Bytes × Json)} {m : Bytes × Json} {event : Json}

/-- Measurements within the rules of a project. -/
structure Capped (rules : Option MeasurementRules) (members : List (Bytes × Json)) : Prop where
  sorted : Ordered.Sorted members
  folded : ∀ m ∈ members, FoldsTo m.1 m
  room : ∀ r ∈ rules, members.countP (fun m => Custom r m.1) ≤ r.maxCustom.toNat

/-- Each entry that folding keeps comes from one that folds to its name. -/
theorem exists_of_mem_fold (h : m ∈ fold members) :
    ∃ raw, (raw, m.2) ∈ members ∧ FoldsTo m.1 (raw, m.2) := by
  obtain ⟨raw, hfind⟩ := find?_of_mem_fold h
  have hfolds := List.find?_some hfind
  exact ⟨raw, List.mem_of_find?_eq_some hfind, of_decide_eq_true hfolds⟩

theorem capped_keep (rules : Option MeasurementRules) (members : List (Bytes × Json)) :
    Capped rules (keep rules members) := by
  refine ⟨sorted_keep rules members, fun m hm => ?_, ?_⟩
  · obtain ⟨raw, -, hname, hnumber⟩ := exists_of_mem_fold (keep_subset rules members hm)
    exact ⟨by rw [← hname, Bytes.lower_lower], hnumber⟩
  · rintro r ⟨⟩
    exact countP_limit_le r _ _

namespace Capped

theorem fold_eq (h : Capped rules members) : fold members = members := by
  refine (sorted_fold members).ext h.sorted fun n => ?_
  rw [get?_fold, Ordered.get?_eq_find?]
  refine congrArg (Option.map Prod.snd) (List.find?_congr fun m hm => decide_eq_decide.mpr ?_)
  obtain ⟨hname, hnumber⟩ := h.folded m hm
  exact ⟨fun hfolds => hname.symm.trans hfolds.1, fun heq => ⟨hname.trans heq, hnumber⟩⟩

theorem keep_eq (h : Capped rules members) : keep rules members = members := by
  cases rules with
  | none => exact h.fold_eq
  | some r =>
    have hlength := length_limit r r.maxCustom.toNat members
    have hroom := h.room r rfl
    rw [keep, h.fold_eq]
    exact (limit_sublist r _ _).eq_of_length (by omega)

theorem dropped_eq (h : Capped rules members) : dropped rules members = 0 := by
  have hnumbers : members.countP (fun m => (number? m.2).isNone) = 0 := by
    refine List.countP_eq_zero.mpr fun m hm => ?_
    rw [Option.isNone_iff_eq_none, ← Option.not_isSome_iff_eq_none]
    exact not_not.mpr (h.folded m hm).2
  rw [dropped_eq_countP, hnumbers, h.fold_eq, h.keep_eq, Nat.sub_self]

end Capped

/-- Capping leaves alone what is within the rules. -/
theorem cap_of_capped (hevent : event.InOrder) (h : ∀ v, event.get? (ascii "measurements") = some v →
    ∃ members, v = .object members ∧ Capped rules members) : cap rules event = (event, 0) := by
  unfold cap
  cases hget : event.get? (ascii "measurements") with
  | none => rfl
  | some v =>
    obtain ⟨members, rfl, hcapped⟩ := h v hget
    dsimp only
    rw [hcapped.keep_eq, hcapped.dropped_eq, hevent.set_of_get? hget]

theorem capped_of_cap_get? {v : Json} (h : (cap rules event).1.get? (ascii "measurements") = some v) :
    ∃ members, v = .object members ∧ Capped rules members := by
  by_cases hmembers : ∃ members, event.get? (ascii "measurements") = some (.object members)
  · obtain ⟨members, hmembers⟩ := hmembers
    rw [cap_get? rules hmembers] at h
    cases h
    exact ⟨_, rfl, capped_keep rules members⟩
  · rw [cap_get?_of_not_object rules (not_exists.mp hmembers)] at h
    cases h

theorem inOrder_cap (h : event.InOrder) (rules : Option MeasurementRules) : (cap rules event).1.InOrder := by
  unfold cap
  split
  · exact h
  · next members hmembers =>
    have hentries := (Json.inOrder_object.mp (h.get? hmembers)).2
    refine h.set (.object (sorted_keep rules members) fun m hm => ?_) _
    obtain ⟨raw, hraw, -⟩ := exists_of_mem_fold (keep_subset rules members hm)
    exact hentries (raw, m.2) hraw
  · exact h.erase _

end Measurements

/-! ## Breakdowns -/

namespace Breakdowns

variable {b : Breakdown} {breakdowns : List Breakdown} {spans : List Json} {event entry : Json}
  {written : List (Bytes × Json)}

theorem Holds.sorted (h : Holds event written) (hevent : event.InOrder) : Ordered.Sorted written := by
  obtain hget | ⟨-, rfl⟩ := h.get?_cases
  · exact (Json.inOrder_object.mp (hevent.get? hget)).1
  · exact Ordered.sorted_nil

/-! ### Members in order -/

theorem inOrder_dropMisshapen (h : event.InOrder) : (dropMisshapen event).InOrder := by
  unfold dropMisshapen
  split
  · exact h
  · exact h
  · exact h.erase _

theorem inOrder_milliseconds (seconds : Float) : (milliseconds seconds).InOrder := by
  have hlt : ascii "unit" < ascii "value" := by decide
  refine .object (List.pairwise_pair.mpr hlt) fun m hm => ?_
  rcases List.mem_cons.mp hm with rfl | hm
  · exact .string _
  · cases List.mem_singleton.mp hm
    exact .number _

theorem inOrder_measure? (h : measure? b spans = some entry) : entry.InOrder := by
  rw [measure?_eq] at h
  split at h
  · cases h
  · cases h
    refine .object (sorted_entries _ _) fun m hm => ?_
    have hget := (sorted_entries _ _).get?_of_mem hm
    rw [get?_entries (List.mem_map_of_mem hm)] at hget
    rw [← Option.some.inj hget]
    exact inOrder_milliseconds _

theorem inOrder_write (h : event.InOrder) (spans : List Json) (b : Breakdown) :
    (write spans event b).InOrder := by
  unfold write
  split
  · exact h
  · next entry hentry =>
    have hwritten : ((event.get? (ascii "breakdowns")).getD (.object [])).InOrder := by
      cases hget : event.get? (ascii "breakdowns") with
      | none => exact .object Ordered.sorted_nil nofun
      | some v => exact h.get? hget
    exact h.set (hwritten.set (inOrder_measure? hentry) _) _

theorem inOrder_compute (h : event.InOrder) (breakdowns : List Breakdown) :
    (compute breakdowns event).InOrder := by
  unfold compute
  split
  · exact h
  · split
    · exact List.foldlRecOn breakdowns _ (inOrder_dropMisshapen h) fun event h b _ =>
        inOrder_write h _ b
    · exact h

theorem Holds.foldl_write_idempotent (h : Holds event written) (hsorted : Ordered.Sorted written)
    (breakdowns : List Breakdown) (spans : List Json) :
    breakdowns.foldl (Breakdowns.write spans)
      (dropMisshapen (breakdowns.foldl (Breakdowns.write spans) event)) =
      breakdowns.foldl (Breakdowns.write spans) event := by
  rw [foldl_write_eq h]
  split
  · next hwrites => rw [h.dropMisshapen_eq, foldl_write_eq h, if_pos hwrites]
  · next hwrites =>
    have hset := h.set ((writes breakdowns spans).foldl (fun m e => Ordered.insert e.1 e.2 m) written)
    rw [hset.dropMisshapen_eq, foldl_write_eq hset, if_neg hwrites, Json.set_set,
      hsorted.foldl_insert_foldl_insert]

/-- **To write the breakdowns again changes nothing**, whatever their names. -/
theorem compute_compute (h : event.InOrder) (breakdowns : List Breakdown) :
    compute breakdowns (compute breakdowns event) = compute breakdowns event := by
  have hspans := (compute_agrees breakdowns event).get? (ascii "spans") (by decide)
  obtain hsame | ⟨spans, hget, hwrites⟩ := compute_cases breakdowns event
  · rw [hsame event rfl, hsame event rfl]
  · obtain ⟨written, hholds, -⟩ := holds_dropMisshapen (Json.isSome_object?_of_get? hget)
    rw [hwrites _ hspans, hwrites event rfl]
    exact hholds.foldl_write_idempotent (hholds.sorted (inOrder_dropMisshapen h)) breakdowns spans

end Breakdowns

/-! ## Normal forms -/

namespace Transaction

variable {event : Json}

theorem inOrder_normalize (h : event.InOrder) (config : Config) : (normalize config event).InOrder :=
  Breakdowns.inOrder_compute (Measurements.inOrder_cap h _) _

/-- The measurements of a normal form are within the rules. -/
theorem cap_normalize (h : event.InOrder) (config : Config) :
    Measurements.cap config.measurements (normalize config event) = (normalize config event, 0) := by
  refine Measurements.cap_of_capped (inOrder_normalize h config) fun v hv => ?_
  have hget := (Breakdowns.compute_agrees config.breakdowns
    (Measurements.cap config.measurements event).1).get?
    (ascii "measurements") (by decide)
  exact Measurements.capped_of_cap_get? (hget.symm.trans hv)

theorem compute_normalize (h : event.InOrder) (config : Config) :
    Breakdowns.compute config.breakdowns (normalize config event) = normalize config event :=
  Breakdowns.compute_compute (Measurements.inOrder_cap h _) _

/-- **The normal form of an event is its own normal form.**  It has no measurements to drop, and what is
extracted from it is what is extracted from the event. -/
theorem normalize_idempotent (config : Config) (h : event.InOrder) :
    normalize config (normalize config event) = normalize config event ∧
      Measurements.cap config.measurements (normalize config event) = (normalize config event, 0) ∧
      ∀ item, Extraction.transaction config item (normalize config event) =
        Extraction.transaction config item event := by
  have hnormal : normalize config (normalize config event) = normalize config event := by
    rw [normalize.eq_def config (normalize config event), cap_normalize h, compute_normalize h]
  refine ⟨hnormal, cap_normalize h config, fun item => ?_⟩
  rw [Extraction.transaction, Extraction.transaction, hnormal]

/-- Names that fold alike, no room for custom ones, two breakdowns of one name and breakdowns that were
there before. -/
theorem normalize_idempotent_collisions :
    let entry := fun x : UInt64 => Json.object [(ascii "value", .number (.unsigned x))]
    let event := Json.object [
      (ascii "breakdowns", .object [(ascii "client", .null), (ascii "ops", .null)]),
      (ascii "measurements", .object [(ascii "A", entry 1), (ascii "FCP", entry 2), (ascii "a", entry 3),
        (ascii "b", .null)]),
      (ascii "spans", .array [.object [(ascii "op", .string (ascii "db.query")),
        (ascii "start_timestamp", .number (.unsigned 1)), (ascii "timestamp", .number (.unsigned 3))]])]
    let config : Config :=
      { transactionVersion := some 1
        measurements := some ⟨[⟨ascii "fcp", ascii "millisecond"⟩], 0⟩
        breakdowns := [⟨ascii "ops", [ascii "db"]⟩, ⟨ascii "ops", [ascii "d", ascii "db"]⟩] }
    event.InOrder ∧ (Measurements.cap config.measurements event).2 = 2 ∧
      normalize config (normalize config event) = normalize config event ∧
      (Measurements.cap config.measurements (normalize config event)).2 = 0 := by
  intro entry event config
  have hparse : Json.parse? event.render = some event := Json.parse?_render (by decide)
  have hevent : event.InOrder := Json.parse?_inOrder hparse
  obtain ⟨hnormal, hcap, -⟩ := normalize_idempotent config hevent
  exact ⟨hevent, by decide +kernel, hnormal, congrArg Prod.snd hcap⟩

end Transaction

end Telemetry

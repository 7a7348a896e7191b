import Telemetry.Proofs.Intake.Consistency

/-!
# What is recorded as dropped

The drops of some effects depend on them and on the aggregator that answers their merges
(`log_applyAll`), and all of them are of the project that the envelope was taken in for
(`within_effects`, `within_drops`), whatever the payloads say.
-/

namespace Telemetry

/-! ## Drops in a log -/

/-- One unit of a project was dropped. -/
structure Drop.Within (scope : Scope) (d : Drop) : Prop where
  scope : d.scope = scope
  once : d.quantity = 1

namespace DropLog

theorem recordAll_append (log : DropLog) (ds more : List Drop) :
    log.recordAll (ds ++ more) = (log.recordAll ds).recordAll more := List.foldl_append

/-- Each of the drops counts once, in total and under its reason. -/
theorem counts_recordAll (log : DropLog) {ds : List Drop} (h : ∀ d ∈ ds, d.quantity = 1) :
    (log.recordAll ds).total = log.total + UInt64.ofNat ds.length ∧
      ∀ reason, (log.recordAll ds).counts.get reason =
        log.counts.get reason + UInt64.ofNat (ds.countP fun d => d.reason = reason) := by
  induction ds generalizing log with
  | nil =>
    refine ⟨(UInt64.add_zero _).symm, fun reason => (UInt64.add_zero _).symm⟩
  | cons d rest ih =>
    obtain ⟨hd, hrest⟩ := List.forall_mem_cons.mp h
    obtain ⟨htotal, hcounts⟩ := ih (log.record d) hrest
    refine ⟨?_, fun reason => ?_⟩
    · change ((log.record d).recordAll rest).total = _
      rw [htotal, List.length_cons, Nat.add_comm, UInt64.ofNat_add, ← UInt64.add_assoc]
      change log.total + d.quantity + _ = _
      rw [hd]
      rfl
    · change ((log.record d).recordAll rest).counts.get reason = _
      rw [hcounts, record, DropCounts.get_add, List.countP_cons, hd]
      by_cases hr : reason = d.reason
      · subst hr
        simp only [↓reduceIte, decide_true]
        rw [Nat.add_comm, UInt64.ofNat_add, ← UInt64.add_assoc]
        rfl
      · simp [hr, Ne.symm hr]

end DropLog

namespace Intake

open Effect (applyAll submits request?)

/-! ## Drops of effects -/

/-- The drop of a merge that was refused. -/
def refusal? (category : Drop.Category) :
    Aggregator.Request Float × Aggregator.Answer Float → Option Drop
  | (.merge _ key _, .outcome o) =>
    (dropReason? o).map fun reason => ⟨reason, category, key.scope, 1, key.name⟩
  | _ => none

/-- What some effects record. -/
def drops : Aggregator Float → List Effect → List Drop
  | _, [] => []
  | a, .record d :: rest => d :: drops a rest
  | a, .dropItem d :: rest => d :: drops a rest
  | a, .submit now category key value :: rest =>
    (refusal? category (.merge now key value, .outcome (a.merge now key value).1)).toList ++
      drops (a.merge now key value).2 rest
  | a, .extract _ :: rest => drops a rest
  | a, .forward _ :: rest => drops a rest

theorem log_merge (now : UInt64) (category : Drop.Category) (k : BucketKey) (v : Value Float)
    (p : Progress) : (merge now category k v p).1.log = p.1.log.recordAll
      (refusal? category (.merge now k v, .outcome (p.1.aggregator.merge now k v).1)).toList := by
  unfold merge refusal?
  dsimp only
  cases dropReason? (p.1.aggregator.merge now k v).1 <;> rfl

/-- **The log grows by the drops of the effects.** -/
theorem log_applyAll (p : Progress) (es : List Effect) :
    (applyAll p es).1.log = p.1.log.recordAll (drops p.1.aggregator es) := by
  induction es generalizing p with
  | nil => rfl
  | cons e rest ih =>
    change (applyAll (e.apply p) rest).1.log = _
    rw [ih]
    cases e with
    | submit now category k v =>
      change (merge now category k v p).1.log.recordAll _ = _
      rw [log_merge, drops, DropLog.recordAll_append, ← aggregator_merge now category]
      rfl
    | record d | dropItem d | extract n | forward r => rfl

/-! ## Effects of a project -/

/-- An effect touches the data of one project only. -/
def Effect.Within (scope : Scope) : Effect → Prop
  | record d | dropItem d => Drop.Within scope d
  | submit _ _ key _ => key.scope = scope
  | extract _ | forward _ => True

theorem within_drops {scope : Scope} (a : Aggregator Float) {es : List Effect}
    (h : ∀ e ∈ es, e.Within scope) : ∀ d ∈ drops a es, Drop.Within scope d := by
  induction es generalizing a with
  | nil => exact List.forall_mem_nil _
  | cons e rest ih =>
    obtain ⟨he, hrest⟩ := List.forall_mem_cons.mp h
    cases e with
    | record d | dropItem d => exact List.forall_mem_cons.mpr ⟨he, ih a hrest⟩
    | submit now category key value =>
      intro d hd
      rcases List.mem_append.mp hd with hd | hd
      · obtain ⟨reason, -, rfl⟩ := Option.map_eq_some_iff.mp (Option.mem_toList.mp hd)
        exact ⟨he, rfl⟩
      · exact ih _ hrest d hd
    | extract n | forward r => exact ih a hrest

section Within

variable (clock : Nat → UInt64)

theorem within_points (category : Drop.Category) (scope : Scope) (points : List (Point Float)) :
    ∀ e ∈ submits clock category (points.map (submission scope)), e.Within scope := by
  apply Effect.forall_mem_submits
  intro x hx _
  obtain ⟨p, -, rfl⟩ := List.mem_map.mp hx
  rfl

theorem within_extracted (category : Drop.Category) (scope : Scope) (r : Extraction.Result) :
    ∀ e ∈ extracted clock category scope r, e.Within scope := by
  intro e he
  rcases List.mem_append.mp he with he | he
  · rcases List.mem_cons.mp he with rfl | he
    · trivial
    · exact within_points clock category scope r.points e he
  · obtain rfl := List.mem_singleton.mp he
    trivial

theorem within_itemEffects {envelope : Envelope} {project : Project} {i : Item} {es : List Effect}
    (h : itemEffects clock envelope project i = .ok es) : ∀ e ∈ es, e.Within project.scope := by
  unfold itemEffects at h
  split at h
  · cases h
    intro e he
    rcases List.mem_append.mp he with he | he
    · obtain ⟨⟨n, fault⟩, -, rfl⟩ := List.mem_map.mp he
      exact ⟨rfl, rfl⟩
    · exact within_points clock .metric project.scope _ e he
  · cases h
    intro e he
    unfold bucketsEffects at he
    split at he
    · obtain rfl := List.mem_singleton.mp he
      exact ⟨rfl, rfl⟩
    · next results hread =>
      rcases List.mem_append.mp he with he | he
      · obtain ⟨fault, -, rfl⟩ := List.mem_map.mp he
        exact ⟨rfl, rfl⟩
      · refine Effect.forall_mem_submits (fun x hx _ => ?_) e he
        obtain ⟨b, hb, rfl⟩ := List.mem_map.mp hx
        exact (Wire.canonical_of_readAll? hread b hb).2
  · cases h
    unfold sessionEffects
    split
    · exact List.forall_mem_singleton.mpr ⟨rfl, rfl⟩
    · exact within_extracted clock .session project.scope _
  · unfold transactionEffects at h
    split at h
    · cases h
      exact List.forall_mem_singleton.mpr ⟨rfl, rfl⟩
    · split at h
      · cases h
        exact List.forall_mem_singleton.mpr ⟨rfl, rfl⟩
      · cases hr : Extraction.transaction project.config i _ with
        | error e =>
          rw [hr] at h
          cases h
        | ok r =>
          rw [hr] at h
          cases h
          exact within_extracted clock .transaction project.scope r

end Within

/-- **An envelope touches the data of its project only**, whatever its payloads say. -/
theorem within_effects (clock : Clock) (envelope : Envelope) (project : Project)
    (items : List (Item × Nat)) :
    ∀ e ∈ effects clock envelope project items, e.Within project.scope :=
  forall_mem_effects fun x _ _ hes => within_itemEffects (clock x.2) hes

end Intake

end Telemetry

import Telemetry.Proofs.Aggregator.Restriction
import Telemetry.Proofs.Batch.Grouping
import Telemetry.Proofs.Relay.Run

/-!
# Projects are isolated

Projects share the shards of the aggregator, its drains and the workers.  Still an envelope touches the
data of its own project only, whatever its payloads name (`confined_takeIn`).  So two runs that differ in
the envelopes of other projects stay alike in the buckets of a project, and each of their drains has the
same batch of it (`Alike.rounds`).
-/

namespace Telemetry

namespace Relay

variable {σ : Type} {sink : Sink σ} {r r' : Relay σ} {s : Scope}

/-! ## One envelope -/

/-- From one relay to another, at most the data of one project has changed. -/
structure Confined (s : Scope) (r r' : Relay σ) : Prop where
  /-- The buckets of all other projects are as they were and where they were. -/
  buckets : r'.aggregator.restrict (fun t => t ≠ s) = r.aggregator.restrict (fun t => t ≠ s)
  recorded : ∃ ds, r'.intake.log = r.intake.log.recordAll ds ∧ ∀ d ∈ ds, d.scope = s

/-- **An envelope is confined to its project**, even one that fails halfway. -/
theorem confined_takeIn (clock : Intake.Clock) (envelope : Envelope) (project : Project) (r : Relay σ) :
    Confined project.scope r (r.takeIn clock envelope project) := by
  constructor
  · have hrun : (r.takeIn clock envelope project).aggregator = _ :=
      r.intake.aggregator_act (.takeIn r.phase clock envelope project)
    rw [hrun]
    refine Aggregator.restrict_run_of_not ?_ _
    intro q hq
    obtain ⟨now, k, v, rfl, hk⟩ := scope_of_takeIn q hq
    exact ⟨k, v, rfl, by simp [hk]⟩
  · rw [Relay.takeIn, Intake.takeIn_eq]
    split
    · exact ⟨[], rfl, List.forall_mem_nil _⟩
    · refine ⟨_, Intake.log_applyAll .., ?_⟩
      intro d hd
      have hwithin := Intake.within_effects clock envelope project envelope.items.zipIdx
      exact (Intake.within_drops _ hwithin d hd).scope

/-! ## Two runs -/

/-- An action that a project may notice. -/
def Action.concerns (s : Scope) : Action → Bool
  | .process _ _ project => project.scope = s
  | .tick _ | .shutdown => true

/-- A project cannot tell one relay from the other. -/
structure Alike (s : Scope) (r r' : Relay σ) : Prop where
  buckets : r.aggregator.restrict (fun t => t = s) = r'.aggregator.restrict (fun t => t = s)
  partitions : r.partitions = r'.partitions
  phase : r.phase = r'.phase
  begun : r.shutdownBegun = r'.shutdownBegun

theorem seen_requests {action : Action} (h : action.concerns s = true) :
    ∀ q ∈ r.requests action, q.Seen fun t => t = s := by
  intro q hq
  cases action with
  | process clock envelope project =>
    obtain ⟨now, k, v, rfl, hk⟩ := scope_of_takeIn q hq
    exact decide_eq_true (hk.trans (of_decide_eq_true h))
  | tick now =>
    obtain rfl := List.mem_singleton.mp hq
    trivial
  | shutdown =>
    rw [requests] at hq
    split at hq
    · cases hq
    · simp only [List.mem_cons, List.not_mem_nil, or_false] at hq
      rcases hq with rfl | rfl <;> trivial

/-- The batches of a project in some rounds. -/
def batchesOf (s : Scope) (rounds : List (List Batch)) : List (List Batch) :=
  rounds.map fun bs => bs.filter fun b => b.scope = s

theorem batchesOf_rounds (partitions : Option UInt64) (h : Aggregator.History Float) :
    batchesOf s (h.filterMap (round? partitions)) =
      (h.map (Prod.map id (Aggregator.Answer.restrict fun t => t = s))).filterMap
        (round? partitions) := by
  rw [batchesOf, List.map_filterMap, List.filterMap_map]
  congr 1
  funext e
  obtain ⟨request, answer⟩ := e
  cases answer with
  | buckets bs => exact congrArg some (Batch.filter_group_eq_group partitions bs s)
  | outcome o | count n | closed => rfl

namespace Alike

theorem requests_eq (h : Alike s r r') (action : Action) : r.requests action = r'.requests action := by
  cases action with
  | process clock envelope project => rw [requests, requests, h.phase]
  | tick now => rfl
  | shutdown => rw [requests, requests, h.begun]

theorem phase_act (h : Alike s r r') (sink : Sink σ) (action : Action) :
    (r.act sink action).phase = (r'.act sink action).phase ∧
      (r.act sink action).shutdownBegun = (r'.act sink action).shutdownBegun := by
  cases action with
  | process clock envelope project => exact ⟨h.phase, h.begun⟩
  | tick now => exact ⟨h.phase, h.begun⟩
  | shutdown =>
    cases hbegun : r.shutdownBegun with
    | true =>
      rw [Relay.act, Relay.act, shutdown_of_begun hbegun, shutdown_of_begun (h.begun.symm.trans hbegun)]
      exact ⟨h.phase, h.begun⟩
    | false =>
      rw [Relay.act, Relay.act, shutdown_of_unbegun hbegun,
        shutdown_of_unbegun (h.begun.symm.trans hbegun)]
      exact ⟨rfl, rfl⟩

/-- **What a project notices keeps two relays alike**, and the batches of the project are the same. -/
theorem act (h : Alike s r r') (sink : Sink σ) {action : Action} (haction : action.concerns s = true) :
    Alike s (r.act sink action) (r'.act sink action) ∧
      batchesOf s ((r.aggregator.run (r.requests action)).1.filterMap (round? r.partitions)) =
        batchesOf s ((r'.aggregator.run (r'.requests action)).1.filterMap (round? r'.partitions)) := by
  have hrun := Aggregator.restrict_run (seen_requests (r := r) haction) r.aggregator
  have hrun' := Aggregator.restrict_run (seen_requests (r := r') haction) r'.aggregator
  rw [h.requests_eq, h.buckets, hrun'] at hrun
  obtain ⟨hanswers, hleft⟩ := Prod.mk.inj hrun
  obtain ⟨hphase, hbegun⟩ := h.phase_act sink action
  refine ⟨⟨?_, ?_, hphase, hbegun⟩, ?_⟩
  · rw [aggregator_act, aggregator_act, h.requests_eq]
    exact hleft.symm
  · rw [partitions_act, partitions_act, h.partitions]
  · rw [batchesOf_rounds, batchesOf_rounds, h.partitions, h.requests_eq, hanswers]

/-- **What does not concern a project** does not change what it sees. -/
theorem act_of_not (h : Alike s r r') (sink : Sink σ) {action : Action}
    (haction : action.concerns s = false) : Alike s (r.act sink action) r' ∧
      (r.aggregator.run (r.requests action)).1.filterMap (round? r.partitions) = [] := by
  cases action with
  | process clock envelope project =>
    have hother : project.scope ≠ s := of_decide_eq_false haction
    refine ⟨⟨?_, h.partitions, h.phase, h.begun⟩, ?_⟩
    · rw [aggregator_act, ← h.buckets]
      refine Aggregator.restrict_run_of_not ?_ _
      intro q hq
      obtain ⟨now, k, v, rfl, hk⟩ := scope_of_takeIn q hq
      exact ⟨k, v, rfl, decide_eq_false (hk ▸ hother)⟩
    · exact round?_submissions _ _ submission_of_takeIn
  | tick now => cases haction
  | shutdown => cases haction

/-- **A run gives a project the batches of the actions that concern it.** -/
theorem rounds (h : Alike s r r') (sink : Sink σ) (actions : List Action) :
    batchesOf s (r.rounds sink actions) =
      batchesOf s (r'.rounds sink (actions.filter (Action.concerns s))) := by
  induction actions generalizing r r' with
  | nil => rfl
  | cons action rest ih =>
    rw [rounds_cons, batchesOf, List.map_append]
    cases haction : action.concerns s with
    | true =>
      obtain ⟨hnext, hround⟩ := h.act sink haction
      rw [List.filter_cons_of_pos haction, rounds_cons, batchesOf, List.map_append]
      exact congr (congrArg (· ++ ·) hround) (ih hnext)
    | false =>
      obtain ⟨hnext, hround⟩ := h.act_of_not sink haction
      rw [List.filter_cons_of_neg (by simp [haction]), hround]
      exact ih hnext

end Alike

/-! ## Isolation -/

/-- How the projects of a relay are kept apart. -/
structure Isolates (sink : Sink σ) (r : Relay σ) : Prop where
  confined : ∀ clock envelope project, Confined project.scope r (r.takeIn clock envelope project)
  processed : ∀ {clock envelope project report r'},
    r.process clock envelope project = .ok (report, r') → Confined project.scope r r'
  /-- Whatever buckets leave together, the batch of a project holds those of the project and has its
  partition. -/
  grouped : ∀ s buckets more,
    (buckets.filter fun b => b.key.scope = s).Perm (more.filter fun b => b.key.scope = s) →
    List.Forall₂ Batch.Same ((Batch.group r.partitions buckets).filter fun b => b.scope = s)
      ((Batch.group r.partitions more).filter fun b => b.scope = s)
  /-- If only the envelopes of other projects differ, each drain has the same batch of the project. -/
  rounds : ∀ s actions others,
    actions.filter (Action.concerns s) = others.filter (Action.concerns s) →
    List.Forall₂ (List.Forall₂ Batch.Same) (batchesOf s (r.rounds sink actions))
      (batchesOf s (r.rounds sink others))
  /-- The batches of the drains are those that the workers hand over, keep in their queue or give up. -/
  sends : Coherent r → ∀ actions, Flush.Sends sink (r.rounds sink actions).flatten r.flush
    (r.actAll sink actions).flush
  /-- If every send comes back, the outlet takes all of them. -/
  outlet : ∀ ok, sink.Returns ok → Steady ok r → ∀ actions, (r.actAll sink actions).flush.outlet =
    sink.takeAll (r.rounds sink actions).flatten r.flush.outlet

/-- **Projects cannot touch each other's data**, whatever envelopes are taken in for them. -/
theorem projects_isolated (sink : Sink σ) (r : Relay σ) : Isolates sink r where
  confined clock envelope project := confined_takeIn clock envelope project r
  processed := by
    intro clock envelope project report r' h
    rw [← takeIn_of_process h]
    exact confined_takeIn clock envelope project r
  grouped s buckets more h := Batch.same_filter_group r.partitions h
  rounds s actions others h := by
    have halike : Alike s r r := ⟨rfl, rfl, rfl, rfl⟩
    rw [halike.rounds, h, ← halike.rounds, List.forall₂_same]
    intro bs _
    exact List.forall₂_same.mpr fun b _ => .refl b
  sends h actions := by
    rw [flatten_rounds]
    exact (h.actAll sink actions).2
  outlet ok hsink h actions := by
    rw [flatten_rounds]
    exact (h.outlet_actAll hsink actions).2

/-- A second project sends a bucket that claims to be of the first one. -/
theorem projects_isolated_forged_bucket :
    let s : Scope := ⟨1, 42⟩
    let lines : Action := .process (fun _ n => 1700000000 + UInt64.ofNat n)
      ⟨42, none, 1700000000, [⟨.metrics, ascii "a:1|c\nb:2|c", false⟩]⟩ { scope := s }
    let bucket : Bytes := ascii "[\x7b\"org_id\":1,\"project_id\":42,\"timestamp\":1700000000," ++
      ascii "\"name\":\"c:custom/a@none\",\"type\":\"c\",\"value\":5\x7d]"
    let forged : Action := .process (.still 1700000001)
      ⟨42, none, 1700000001, [⟨.buckets, bucket, false⟩]⟩ { scope := ⟨1, 43⟩ }
    let r : Relay Outlet :=
      { intake := { aggregator := .empty {} 2 }
        flush := { interval := 10000, pool := .create 1, outlet := .receiver [] [] } }
    Isolates Outlet.sink r ∧
      List.Forall₂ (List.Forall₂ Batch.Same)
        (batchesOf s (r.rounds Outlet.sink [lines, forged, .tick 1700000041]))
        (batchesOf s (r.rounds Outlet.sink [lines, .tick 1700000041])) ∧
      ((r.rounds Outlet.sink [lines, forged, .tick 1700000041]).map
        (·.map fun b => (b.scope.project, b.buckets.length))) = [[(42, 2), (43, 1)]] := by
  intro s lines bucket forged r
  have hisolates : Isolates Outlet.sink r := projects_isolated Outlet.sink r
  have hforged : forged.concerns s = false := by decide
  refine ⟨hisolates, hisolates.rounds s _ _ ?_, by decide +kernel⟩
  simp [List.filter_cons, hforged]

end Relay

end Telemetry

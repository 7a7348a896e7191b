import Telemetry.Proofs.Flush.Delivery
import Telemetry.Proofs.Intake.Drops
import Telemetry.Relay

/-!
# Runs of a relay

Envelopes, rounds of the flush and shutdowns come in any order.  Underneath is one run of the
aggregator (`aggregator_actAll`): its history says which values were merged and which buckets left.  The
batches of the drains in that history are handed to the outlet, queued or given up (`Coherent.actAll`);
if every send comes back, the outlet has taken all of them in their order (`Steady.outlet_actAll`).
-/

namespace Telemetry

namespace Relay

variable {σ : Type}

/-! ## Actions -/

/-- What can happen to a relay. -/
inductive Action where
  | process (clock : Intake.Clock) (envelope : Envelope) (project : Project)
  | tick (now : UInt64)
  | shutdown

/-- The relay after an envelope.  When an item fails, what the items before it did stays. -/
def takeIn (clock : Intake.Clock) (envelope : Envelope) (project : Project) (r : Relay σ) : Relay σ :=
  { r with intake := r.intake.takeIn r.phase clock envelope project }

theorem takeIn_of_process {clock : Intake.Clock} {envelope : Envelope} {project : Project}
    {r r' : Relay σ} {report : Intake.Report} (h : r.process clock envelope project = .ok (report, r')) :
    r.takeIn clock envelope project = r' := by
  unfold process at h
  unfold takeIn Intake.takeIn
  split
  · next p hp =>
    rw [hp] at h
    cases h
    rfl
  · next e he =>
    rw [he] at h
    cases h

def act (sink : Sink σ) (r : Relay σ) : Action → Relay σ
  | .process clock envelope project => r.takeIn clock envelope project
  | .tick now => (r.tick sink now).2
  | .shutdown => (r.shutdown sink).2

def actAll (sink : Sink σ) (r : Relay σ) (actions : List Action) : Relay σ :=
  actions.foldl (act sink) r

theorem actAll_append (sink : Sink σ) (r : Relay σ) (actions more : List Action) :
    r.actAll sink (actions ++ more) = (r.actAll sink actions).actAll sink more := List.foldl_append

theorem tick_snd (sink : Sink σ) (now : UInt64) (r : Relay σ) :
    (r.tick sink now).2 =
      { r with
        intake := (r.setAggregator (r.aggregator.drainDue now).2).intake
        flush := (r.flush.dispatch r.partitions (r.aggregator.drainDue now).1).2.run sink } := rfl

/-- The flush once everything that was left has been dispatched. -/
def lastFlush (sink : Sink σ) (r : Relay σ) : Flush σ :=
  (r.flush.dispatch r.partitions r.aggregator.drainAll.1).2.run sink

theorem shutdown_of_unbegun {r : Relay σ} (h : r.shutdownBegun = false) (sink : Sink σ) :
    r.shutdown sink = (⟨r.aggregator.size, !((r.lastFlush sink).shutdown sink).1⟩,
      { r with
        intake := (r.setAggregator r.aggregator.close.drainAll.2).intake
        flush := ((r.lastFlush sink).shutdown sink).2
        phase := .stopped
        shutdownBegun := true }) := by
  have hlength : r.aggregator.close.drainAll.1.length = r.aggregator.size := by
    rw [Aggregator.drainAll, Aggregator.drain_fst, List.length_map, List.filter_true]
    rfl
  rw [shutdown, h, if_neg Bool.false_ne_true, ← hlength]
  rfl

theorem shutdown_of_begun {r : Relay σ} (h : r.shutdownBegun = true) (sink : Sink σ) :
    r.shutdown sink = ({}, r) := if_pos h

/-! ## The aggregator underneath -/

/-- What an action asks the aggregator for. -/
def requests (r : Relay σ) : Action → List (Aggregator.Request Float)
  | .process clock envelope project =>
    (Intake.Action.takeIn r.phase clock envelope project).requests
  | .tick now => [.drainDue now]
  | .shutdown => if r.shutdownBegun then [] else [.close, .drainAll]

def requestsAll (sink : Sink σ) (r : Relay σ) : List Action → List (Aggregator.Request Float)
  | [] => []
  | action :: rest => r.requests action ++ (r.act sink action).requestsAll sink rest

/-- What the aggregator was asked for and answered. -/
def history (sink : Sink σ) (r : Relay σ) (actions : List Action) : Aggregator.History Float :=
  (r.aggregator.run (r.requestsAll sink actions)).1

theorem aggregator_act (sink : Sink σ) (r : Relay σ) (action : Action) :
    (r.act sink action).aggregator = (r.aggregator.run (r.requests action)).2 := by
  cases action with
  | process clock envelope project =>
    exact r.intake.aggregator_act (.takeIn r.phase clock envelope project)
  | tick now => rfl
  | shutdown =>
    cases h : r.shutdownBegun with
    | true =>
      rw [act, shutdown_of_begun h, requests, if_pos h]
      rfl
    | false =>
      rw [act, shutdown_of_unbegun h, requests, h]
      rfl

/-- **The buckets of a relay are those of a run of its aggregator.** -/
theorem aggregator_actAll (sink : Sink σ) (r : Relay σ) (actions : List Action) :
    (r.actAll sink actions).aggregator = (r.aggregator.run (r.requestsAll sink actions)).2 := by
  induction actions generalizing r with
  | nil => rfl
  | cons action rest ih =>
    change ((r.act sink action).actAll sink rest).aggregator = _
    rw [ih, aggregator_act, requestsAll, Aggregator.run_append]

theorem history_cons (sink : Sink σ) (r : Relay σ) (action : Action) (rest : List Action) :
    r.history sink (action :: rest) =
      (r.aggregator.run (r.requests action)).1 ++ (r.act sink action).history sink rest := by
  rw [history, requestsAll, Aggregator.run_append, ← aggregator_act sink]
  rfl

theorem history_append (sink : Sink σ) (r : Relay σ) (actions more : List Action) :
    r.history sink (actions ++ more) =
      r.history sink actions ++ (r.actAll sink actions).history sink more := by
  induction actions generalizing r with
  | nil => rfl
  | cons action rest ih =>
    rw [List.cons_append, history_cons, history_cons, ih, List.append_assoc]
    rfl

/-! ## What leaves -/

/-- The batches of the buckets that one answer returned. -/
def outgoing (partitions : Option UInt64) :
    Aggregator.Request Float × Aggregator.Answer Float → List Batch
  | (_, .buckets bs) => Batch.group partitions bs
  | (_, .outcome _) | (_, .count _) | (_, .closed) => []

/-- The batches of the drains of a run. -/
def handed (sink : Sink σ) (r : Relay σ) (actions : List Action) : List Batch :=
  (r.history sink actions).flatMap (outgoing r.partitions)

/-- The batches of a drain, present even if there are none. -/
def round? (partitions : Option UInt64) :
    Aggregator.Request Float × Aggregator.Answer Float → Option (List Batch)
  | (_, .buckets bs) => some (Batch.group partitions bs)
  | (_, .outcome _) | (_, .count _) | (_, .closed) => none

theorem flatten_round? (partitions : Option UInt64) (h : Aggregator.History Float) :
    (h.filterMap (round? partitions)).flatten = h.flatMap (outgoing partitions) := by
  induction h with
  | nil => rfl
  | cons e rest ih =>
    obtain ⟨request, answer⟩ := e
    cases answer with
    | buckets bs => exact congrArg (Batch.group partitions bs ++ ·) ih
    | outcome o | count n | closed => exact ih

theorem round?_submissions (partitions : Option UInt64) (a : Aggregator Float)
    {requests : List (Aggregator.Request Float)} (h : ∀ r ∈ requests, r.submission?.isSome) :
    (a.run requests).1.filterMap (round? partitions) = [] := by
  induction requests generalizing a with
  | nil => rfl
  | cons r rest ih =>
    obtain ⟨hr, hrest⟩ := List.forall_mem_cons.mp h
    rw [Aggregator.run_cons, List.filterMap_cons]
    rcases Aggregator.serve_cases a r with ⟨now, k, v, -, he⟩ | ⟨leaves, hs, -⟩ | ⟨hs, -⟩ | ⟨hs, -⟩
    · rw [he]
      exact ih _ hrest
    all_goals
      rw [hs] at hr
      cases hr

theorem outgoing_submissions (partitions : Option UInt64) (a : Aggregator Float)
    {requests : List (Aggregator.Request Float)} (h : ∀ r ∈ requests, r.submission?.isSome) :
    (a.run requests).1.flatMap (outgoing partitions) = [] := by
  rw [← flatten_round?, round?_submissions partitions a h]
  rfl

/-- What an envelope submits is of its project. -/
theorem scope_of_takeIn {phase : Phase} {clock : Intake.Clock} {envelope : Envelope} {project : Project} :
    ∀ q ∈ (Intake.Action.takeIn phase clock envelope project).requests,
      ∃ now k v, q = .merge now k v ∧ k.scope = project.scope := by
  intro q hq
  rw [Intake.Action.requests] at hq
  split at hq
  · cases hq
  · obtain ⟨e, he, heq⟩ := List.mem_filterMap.mp hq
    have hwithin := Intake.within_effects clock envelope project _ e he
    cases e with
    | submit now category key value =>
      cases heq
      exact ⟨now, key, value, rfl, hwithin⟩
    | record d | dropItem d | extract n | forward r => cases heq

theorem submission_of_takeIn {phase : Phase} {clock : Intake.Clock} {envelope : Envelope}
    {project : Project} :
    ∀ q ∈ (Intake.Action.takeIn phase clock envelope project).requests, q.submission?.isSome := by
  intro q hq
  obtain ⟨now, k, v, rfl, -⟩ := scope_of_takeIn q hq
  rfl

@[simp] theorem partitions_act (sink : Sink σ) (r : Relay σ) (action : Action) :
    (r.act sink action).partitions = r.partitions := by
  cases action with
  | process clock envelope project => rfl
  | tick now => rfl
  | shutdown =>
    cases h : r.shutdownBegun with
    | true => rw [act, shutdown_of_begun h]
    | false => rw [act, shutdown_of_unbegun h]

theorem partitions_actAll (sink : Sink σ) (r : Relay σ) (actions : List Action) :
    (r.actAll sink actions).partitions = r.partitions := by
  induction actions generalizing r with
  | nil => rfl
  | cons action rest ih => exact (ih _).trans (partitions_act sink r action)

def rounds (sink : Sink σ) (r : Relay σ) (actions : List Action) : List (List Batch) :=
  (r.history sink actions).filterMap (round? r.partitions)

theorem flatten_rounds (sink : Sink σ) (r : Relay σ) (actions : List Action) :
    (r.rounds sink actions).flatten = r.handed sink actions := flatten_round? ..

theorem rounds_cons (sink : Sink σ) (r : Relay σ) (action : Action) (rest : List Action) :
    r.rounds sink (action :: rest) =
      (r.aggregator.run (r.requests action)).1.filterMap (round? r.partitions) ++
        (r.act sink action).rounds sink rest := by
  rw [rounds, history_cons, List.filterMap_append, rounds, partitions_act]

theorem handed_append (sink : Sink σ) (r : Relay σ) (actions more : List Action) :
    r.handed sink (actions ++ more) =
      r.handed sink actions ++ (r.actAll sink actions).handed sink more := by
  rw [handed, handed, handed, history_append, List.flatMap_append, partitions_actAll]

/-- A relay takes batches until a shutdown begins, behind which nothing is stored. -/
structure Coherent (r : Relay σ) : Prop where
  opened : r.shutdownBegun = false → r.flush.pool.accepting = true
  ended : r.shutdownBegun = true →
    r.phase = .stopped ∧ r.aggregator.closed = true ∧ r.aggregator.stored = []

namespace Coherent

variable {r : Relay σ}

theorem drainDue_eq_nil (h : Coherent r) (hbegun : r.shutdownBegun = true) (now : UInt64) :
    (r.aggregator.drainDue now).1 = [] := by
  rw [Aggregator.drainDue, Aggregator.drain_fst, (h.ended hbegun).2.2]
  rfl

theorem takeIn (h : Coherent r) (clock : Intake.Clock) (envelope : Envelope) (project : Project) :
    Coherent (r.takeIn clock envelope project) := by
  refine ⟨h.opened, ?_⟩
  intro hbegun
  obtain ⟨hphase, hclosed, hstored⟩ := h.ended hbegun
  have hkept : (r.takeIn clock envelope project).intake = _ := Intake.takeIn_eq ..
  rw [if_pos (Or.inl (by rw [hphase]; exact Phase.noConfusion))] at hkept
  refine ⟨hphase, ?_, ?_⟩
  · rw [aggregator, hkept]
    exact hclosed
  · rw [aggregator, hkept]
    exact hstored

/-- **An action sends the batches of its drains**, whatever the outlet does with them. -/
theorem act (h : Coherent r) (sink : Sink σ) (action : Action) :
    Coherent (r.act sink action) ∧ Flush.Sends sink
      ((r.aggregator.run (r.requests action)).1.flatMap (outgoing r.partitions))
      r.flush (r.act sink action).flush := by
  cases action with
  | process clock envelope project =>
    refine ⟨h.takeIn clock envelope project, ?_⟩
    rw [requests, outgoing_submissions _ _ submission_of_takeIn]
    exact .refl sink r.flush
  | tick now =>
    change Coherent (r.tick sink now).2 ∧ Flush.Sends sink
      (Batch.group r.partitions (r.aggregator.drainDue now).1 ++ []) r.flush (r.tick sink now).2.flush
    rw [List.append_nil, tick_snd]
    cases hbegun : r.shutdownBegun with
    | false =>
      obtain ⟨hsends, hopen⟩ := Flush.dispatch_sends sink (h.opened hbegun) r.partitions
        (r.aggregator.drainDue now).1
      exact ⟨⟨fun _ => hopen, fun hb => nomatch hb⟩, hsends⟩
    | true =>
      obtain ⟨hphase, hclosed, hstored⟩ := h.ended hbegun
      have hleft : (r.aggregator.drainDue now).2.stored = [] := by
        rw [Aggregator.drainDue, Aggregator.stored_drain, hstored]
        rfl
      rw [h.drainDue_eq_nil hbegun]
      exact ⟨⟨fun hb => (nomatch hb), fun _ => ⟨hphase, hclosed, hleft⟩⟩,
        (Flush.run_sends sink r.flush).1⟩
  | shutdown =>
    cases hbegun : r.shutdownBegun with
    | true =>
      rw [Relay.act, shutdown_of_begun hbegun, requests, if_pos hbegun]
      exact ⟨h, .refl sink r.flush⟩
    | false =>
      have hleft : r.aggregator.close.drainAll.2.stored = [] := by
        rw [Aggregator.drainAll, Aggregator.stored_drain]
        exact List.filter_false _
      have hsends := (Flush.dispatch_sends sink (h.opened hbegun) r.partitions
        r.aggregator.drainAll.1).1.trans (Flush.shutdown_sends sink _)
      rw [Relay.act, shutdown_of_unbegun hbegun, requests, hbegun]
      exact ⟨⟨fun hb => (nomatch hb), fun _ => ⟨rfl, rfl, hleft⟩⟩, hsends⟩

/-- **A run sends the batches of its drains**, whatever the outlet does with them. -/
theorem actAll (h : Coherent r) (sink : Sink σ) (actions : List Action) :
    Coherent (r.actAll sink actions) ∧
      Flush.Sends sink (r.handed sink actions) r.flush (r.actAll sink actions).flush := by
  induction actions generalizing r with
  | nil => exact ⟨h, .refl sink r.flush⟩
  | cons action rest ih =>
    obtain ⟨hnext, hsends⟩ := h.act sink action
    obtain ⟨hend, hrest⟩ := ih hnext
    refine ⟨hend, ?_⟩
    rw [handed, partitions_act] at hrest
    rw [handed, history_cons, List.flatMap_append]
    exact hsends.trans hrest

end Coherent

/-- The next batches go straight through; after a shutdown there are none. -/
structure Steady (ok : σ → Prop) (r : Relay σ) : Prop where
  flush : r.flush.Ready ok
  opened : r.shutdownBegun = false → r.flush.pool.accepting = true
  ended : r.shutdownBegun = true →
    r.phase = .stopped ∧ r.aggregator.closed = true ∧ r.aggregator.stored = []

namespace Steady

variable {ok : σ → Prop} {sink : Sink σ} {r : Relay σ}

theorem coherent (h : Steady ok r) : Coherent r := ⟨h.opened, h.ended⟩

/-- **An action hands over the batches of its drains**, and the next one will. -/
theorem act (h : Steady ok r) (hsink : sink.Returns ok) (action : Action) :
    Steady ok (r.act sink action) ∧ (r.act sink action).flush.outlet =
      sink.takeAll ((r.aggregator.run (r.requests action)).1.flatMap (outgoing r.partitions))
        r.flush.outlet := by
  obtain ⟨hopened, hended⟩ := (h.coherent.act sink action).1
  suffices hsent : (r.act sink action).flush.Ready ok ∧ (r.act sink action).flush.outlet =
      sink.takeAll ((r.aggregator.run (r.requests action)).1.flatMap (outgoing r.partitions))
        r.flush.outlet from ⟨⟨hsent.1, hopened, hended⟩, hsent.2⟩
  cases action with
  | process clock envelope project =>
    rw [requests, outgoing_submissions _ _ submission_of_takeIn]
    exact ⟨h.flush, rfl⟩
  | tick now =>
    change (r.tick sink now).2.flush.Ready ok ∧ (r.tick sink now).2.flush.outlet =
      sink.takeAll (Batch.group r.partitions (r.aggregator.drainDue now).1 ++ []) r.flush.outlet
    rw [List.append_nil, tick_snd]
    cases hbegun : r.shutdownBegun with
    | false =>
      obtain ⟨hready, -, hsent⟩ :=
        h.flush.dispatch hsink (h.opened hbegun) r.partitions (r.aggregator.drainDue now).1
      exact ⟨hready, hsent⟩
    | true =>
      rw [h.coherent.drainDue_eq_nil hbegun, h.flush.dispatch_nil]
      exact ⟨h.flush, rfl⟩
  | shutdown =>
    cases hbegun : r.shutdownBegun with
    | true =>
      rw [Relay.act, shutdown_of_begun hbegun, requests, if_pos hbegun]
      exact ⟨h.flush, rfl⟩
    | false =>
      obtain ⟨hready, -, hsent⟩ :=
        h.flush.dispatch hsink (h.opened hbegun) r.partitions r.aggregator.drainAll.1
      rw [Relay.act, shutdown_of_unbegun hbegun, requests, hbegun]
      change _ ∧ _ = sink.takeAll (Batch.group r.partitions r.aggregator.drainAll.1 ++ []) r.flush.outlet
      rw [List.append_nil, lastFlush, hready.shutdown]
      exact ⟨⟨hready.workers, hready.queued, hready.running, hready.outlet⟩, hsent⟩

/-- **The outlet takes the batches of all drains in their order.** -/
theorem outlet_actAll (h : Steady ok r) (hsink : sink.Returns ok) (actions : List Action) :
    Steady ok (r.actAll sink actions) ∧ (r.actAll sink actions).flush.outlet =
      sink.takeAll (r.handed sink actions) r.flush.outlet := by
  induction actions generalizing r with
  | nil => exact ⟨h, rfl⟩
  | cons action rest ih =>
    obtain ⟨hnext, hsent⟩ := h.act hsink action
    obtain ⟨hend, hrest⟩ := ih hnext
    refine ⟨hend, ?_⟩
    rw [handed, history_cons, List.flatMap_append, Sink.takeAll_append, ← hsent]
    rw [handed, partitions_act] at hrest
    exact hrest

end Steady

end Relay

end Telemetry

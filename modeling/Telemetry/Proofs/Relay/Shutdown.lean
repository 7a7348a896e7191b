import Telemetry.Proofs.Aggregator.Conservation
import Telemetry.Proofs.Batch.Grouping
import Telemetry.Proofs.Relay.Run

/-!
# A shutdown delivers what was accepted

Whatever happens before and after the first shutdown, if every send comes back, each value that was
merged is in one bucket of one batch that the outlet has taken (`shutdown_delivers`).  The ledger of a
key is closed by the last drain: nothing is stored behind it, because the aggregator was closed first.
-/

namespace Telemetry

namespace Relay

open Aggregator (WF acceptedBy returnedBy ledger)

variable {σ : Type} {sink : Sink σ} {ok : σ → Prop} {r : Relay σ}

/-! ## Phases -/

/-- The phase that an action passes through on its way. -/
def passing (r : Relay σ) : Action → List Phase
  | .shutdown => if r.shutdownBegun then [] else [r.beginShutdown.phase]
  | .process .. | .tick _ => []

/-- The phases of a run, one for each state and those in between. -/
def visited (sink : Sink σ) (r : Relay σ) : List Action → List Phase
  | [] => [r.phase]
  | action :: rest => r.phase :: r.passing action ++ (r.act sink action).visited sink rest

section Phases

variable (sink)

/-- Only the first shutdown changes the phase. -/
theorem phase_act {action : Action} (h : action ≠ .shutdown ∨ r.shutdownBegun = true) :
    (r.act sink action).phase = r.phase ∧ (r.act sink action).shutdownBegun = r.shutdownBegun ∧
      r.passing action = [] := by
  cases action with
  | process clock envelope project => exact ⟨rfl, rfl, rfl⟩
  | tick now => exact ⟨rfl, rfl, rfl⟩
  | shutdown =>
    have hbegun : r.shutdownBegun = true := h.resolve_left fun hne => hne rfl
    rw [act, shutdown_of_begun hbegun, passing, if_pos hbegun]
    exact ⟨rfl, rfl, rfl⟩

theorem visited_before {before : List Action} (h : .shutdown ∉ before) (rest : List Action) :
    (r.actAll sink before).phase = r.phase ∧
      (r.actAll sink before).shutdownBegun = r.shutdownBegun ∧
      r.visited sink (before ++ rest) =
        List.replicate before.length r.phase ++ (r.actAll sink before).visited sink rest := by
  induction before generalizing r with
  | nil => exact ⟨rfl, rfl, rfl⟩
  | cons action before ih =>
    obtain ⟨hne, hrest⟩ := not_or.mp (mt List.mem_cons.mpr h)
    obtain ⟨hphase, hbegun, hpassing⟩ := phase_act (r := r) sink (Or.inl (Ne.symm hne))
    obtain ⟨hphases, hbeguns, hvisited⟩ := ih (r := r.act sink action) hrest
    refine ⟨hphases.trans hphase, hbeguns.trans hbegun, ?_⟩
    rw [List.cons_append, visited, hpassing, hvisited, hphase]
    rfl

theorem visited_after (h : r.shutdownBegun = true) (after : List Action) :
    (r.actAll sink after).phase = r.phase ∧ (r.actAll sink after).shutdownBegun = true ∧
      r.visited sink after = List.replicate (after.length + 1) r.phase := by
  induction after generalizing r with
  | nil => exact ⟨rfl, h, rfl⟩
  | cons action after ih =>
    obtain ⟨hphase, hbegun, hpassing⟩ : _ ∧ _ ∧ r.passing action = [] := phase_act sink (Or.inr h)
    obtain ⟨hphases, hbeguns, hvisited⟩ := ih (r := r.act sink action) (hbegun.trans h)
    refine ⟨hphases.trans hphase, hbeguns, ?_⟩
    rw [visited, hpassing, hvisited, hphase]
    rfl

end Phases

/-! ## The first shutdown -/

namespace Steady

theorem shutdown_eq (h : Steady ok r) (hsink : sink.Returns ok) (hbegun : r.shutdownBegun = false) :
    (r.shutdown sink).1 = ⟨r.aggregator.size, false⟩ ∧ (r.shutdown sink).2.phase = .stopped ∧
      (r.shutdown sink).2.shutdownBegun = true := by
  obtain ⟨hready, -, -⟩ :=
    h.flush.dispatch hsink (h.opened hbegun) r.partitions r.aggregator.drainAll.1
  rw [shutdown_of_unbegun hbegun, lastFlush, hready.shutdown]
  exact ⟨rfl, rfl, rfl⟩

theorem handed_of_begun (h : Steady ok r) (hsink : sink.Returns ok) (hbegun : r.shutdownBegun = true)
    (actions : List Action) : r.handed sink actions = [] := by
  induction actions generalizing r with
  | nil => rfl
  | cons action rest ih =>
    have hbegun' : (r.act sink action).shutdownBegun = true :=
      (phase_act sink (Or.inr hbegun)).2.1.trans hbegun
    have hrest := ih (h.act hsink action).1 hbegun'
    rw [handed, partitions_act] at hrest
    rw [handed, history_cons, List.flatMap_append, hrest, List.append_nil]
    cases action with
    | process clock envelope project => exact outgoing_submissions _ _ submission_of_takeIn
    | tick now =>
      change Batch.group r.partitions (r.aggregator.drainDue now).1 ++ [] = []
      rw [h.coherent.drainDue_eq_nil hbegun]
      rfl
    | shutdown =>
      rw [requests, if_pos hbegun]
      rfl

end Steady

/-! ## What was delivered -/

/-- The buckets of a key in the batches of some answers are those that the answers returned. -/
theorem filter_outgoing (partitions : Option UInt64) (h : Aggregator.History Float) (k : BucketKey) :
    ((h.flatMap (outgoing partitions)).flatMap Batch.buckets).filter (fun b => b.key = k) =
      h.flatMap (returnedBy k) := by
  rw [List.flatMap_assoc, List.filter_flatMap]
  congr 1
  funext e
  obtain ⟨request, answer⟩ := e
  cases answer with
  | buckets bs =>
    refine Batch.filter_buckets_group (s := k.scope) partitions bs ?_
    intro b hb
    exact congrArg BucketKey.scope (of_decide_eq_true hb)
  | outcome o | count n | closed => rfl

/-- The batches hold what a history has accepted, all of it, once, and each bucket with its project. -/
structure Delivered (settings : Aggregator.Settings) (partitions : Option UInt64)
    (h : Aggregator.History Float) (batches : List Batch) : Prop where
  nonempty : ∀ b ∈ batches, b.buckets ≠ []
  scope : ∀ b ∈ batches, ∀ x ∈ b.buckets, x.key.scope = b.scope
  partition : ∀ b ∈ batches, b.partition = b.scope.partition? partitions
  /-- The values accepted for a key are cut into one group for each bucket of the key, which is its
  group merged. -/
  values : ∀ k, ∃ groups : List (List (Value Float)),
    groups.flatten = h.flatMap (acceptedBy settings k) ∧
    List.Forall₂ (fun vs b => Value.mergeAll? vs = some b.value) groups
      ((batches.flatMap Batch.buckets).filter fun b => b.key = k)

/-- **A run that leaves nothing behind has delivered everything.** -/
theorem delivered_of_run {a : Aggregator Float} (hwf : WF a) (hempty : a.stored = [])
    {requests : List (Aggregator.Request Float)} (hleft : (a.run requests).2.stored = [])
    (partitions : Option UInt64) :
    Delivered a.settings partitions (a.run requests).1
      ((a.run requests).1.flatMap (outgoing partitions)) := by
  have hnone : ∀ {a' : Aggregator Float}, WF a' → a'.stored = [] → ∀ k, a'.lookup k = none := by
    intro a' hwf' hstored k
    refine Option.eq_none_iff_forall_ne_some.mpr ?_
    intro b hb
    have hmem := (hwf'.lookup_eq_some_iff.mp hb).1
    rw [hstored] at hmem
    cases hmem
  have hbatch : ∀ b ∈ (a.run requests).1.flatMap (outgoing partitions),
      ∃ bs, b ∈ Batch.group partitions bs := by
    intro b hb
    obtain ⟨⟨request, answer⟩, -, hb⟩ := List.mem_flatMap.mp hb
    cases answer with
    | buckets bs => exact ⟨bs, hb⟩
    | outcome o | count n | closed => cases hb
  refine ⟨?_, ?_, ?_, ?_⟩
  · intro b hb
    obtain ⟨bs, hbs⟩ := hbatch b hb
    exact (Batch.mem_group hbs).1
  · intro b hb x hx
    obtain ⟨bs, hbs⟩ := hbatch b hb
    rw [(Batch.mem_group hbs).2.2] at hx
    exact of_decide_eq_true (List.mem_filter.mp hx).2
  · intro b hb
    obtain ⟨bs, hbs⟩ := hbatch b hb
    exact (Batch.mem_group hbs).2.1
  · intro k
    have hstart : Balanced id Bucket.value (Ledger.empty : Ledger (Value Float) (Bucket Float))
        ((a.lookup k).map Aggregator.Stored.value) := by
      rw [hnone hwf hempty k]
      exact .empty
    have hbal : Balanced id Bucket.value (ledger a.settings k (a.run requests).1) none := by
      have hend := Aggregator.run_balanced hwf requests k hstart
      rw [hnone (hwf.run requests) hleft k] at hend
      exact hend
    refine ⟨(ledger a.settings k (a.run requests).1).groups.map Prod.fst, ?_, ?_⟩
    · have haccepted := Aggregator.accepted_ledger a.settings k (a.run requests).1
      rw [Ledger.accepted, hbal.since_nil rfl, List.append_nil] at haccepted
      rw [← haccepted, List.flatMap_def]
    · rw [filter_outgoing, ← Aggregator.returned_ledger a.settings, Ledger.returned,
        List.forall₂_map_left_iff, List.forall₂_map_right_iff, List.forall₂_same]
      intro g hg
      simpa using hbal.group g hg

/-! ## Runs with a shutdown -/

/-- A relay that runs, stores nothing and sends nothing. -/
structure Fresh (ok : σ → Prop) (r : Relay σ) : Prop where
  running : r.phase = .running
  unbegun : r.shutdownBegun = false
  wf : WF r.aggregator
  empty : r.aggregator.stored = []
  flush : r.flush.Ready ok
  opened : r.flush.pool.accepting = true

theorem Fresh.steady (h : Fresh ok r) : Steady ok r :=
  ⟨h.flush, fun _ => h.opened, fun hbegun => absurd (h.unbegun.symm.trans hbegun) Bool.false_ne_true⟩

/-- A relay that has just been set up. -/
def start (settings : Aggregator.Settings) (shards : Nat) (partitions : Option UInt64) (workers : Nat)
    (interval : Int) (outlet : σ) : Relay σ where
  intake := { aggregator := .empty settings shards }
  flush := { interval, pool := .create workers, outlet }
  partitions

theorem fresh_start (settings : Aggregator.Settings) (shards : Nat) (partitions : Option UInt64)
    (workers : Nat) (interval : Int) {outlet : σ} (hok : ok outlet) :
    Fresh ok (start settings shards partitions workers interval outlet) := by
  refine ⟨rfl, rfl, WF.empty settings shards, ?_, ⟨?_, rfl, rfl, hok⟩, rfl⟩
  · refine List.eq_nil_iff_forall_not_mem.mpr ?_
    exact Aggregator.holds_empty (P := fun _ _ => False) settings shards
  · exact Nat.lt_of_lt_of_le Nat.zero_lt_one (Nat.le_max_right workers 1)

/-- Nothing is left, and nothing is taken in or sent any more. -/
structure Over (sink : Sink σ) (r : Relay σ) : Prop where
  phase : r.phase = .stopped
  closed : r.aggregator.closed = true
  empty : r.aggregator.stored = []
  process : ∀ clock envelope project, ∃ report r',
    r.process clock envelope project = .ok (report, r') ∧
      report.accepted = false ∧ report.forwarded = [] ∧ r'.aggregator = r.aggregator ∧
      r'.intake.log = r.intake.log ∧ r'.flush = r.flush
  shutdown : r.shutdown sink = ({}, r)

/-- What a run comes to in which a shutdown follows some actions and precedes others. -/
structure ShutsDown (sink : Sink σ) (r₀ : Relay σ) (before after : List Action) : Prop where
  phases : r₀.visited sink (before ++ .shutdown :: after) =
    List.replicate (before.length + 1) .running ++
      .draining :: List.replicate (after.length + 1) .stopped
  /-- The report has the number of buckets that were stored when the shutdown began. -/
  report : ((r₀.actAll sink before).shutdown sink).1 = ⟨(r₀.actAll sink before).aggregator.size, false⟩
  /-- The history up to the shutdown is that of the aggregator. -/
  history : (r₀.history sink before, (r₀.actAll sink before).aggregator) =
    r₀.aggregator.run (r₀.requestsAll sink before)
  /-- Once the shutdown has ended, nothing is stored, and nothing comes or goes any more. -/
  ended : Over sink (r₀.actAll sink (before ++ .shutdown :: after))
  /-- The outlet has taken the batches of the drains up to the shutdown, and no other. -/
  outlet : (r₀.actAll sink (before ++ .shutdown :: after)).flush.outlet =
    sink.takeAll (r₀.handed sink (before ++ [.shutdown])) r₀.flush.outlet
  delivered : Delivered r₀.aggregator.settings r₀.partitions (r₀.history sink before)
    (r₀.handed sink (before ++ [.shutdown]))

theorem Steady.toOver (h : Steady ok r) (hbegun : r.shutdownBegun = true) : Over sink r := by
  obtain ⟨hphase, hclosed, hstored⟩ := h.ended hbegun
  refine ⟨hphase, hclosed, hstored, ?_, shutdown_of_begun hbegun sink⟩
  intro clock envelope project
  have hrefused : r.phase ≠ .running ∨ project.disabled = true := by
    rw [hphase]
    exact Or.inl Phase.noConfusion
  have hprocess : r.process clock envelope project = .ok ({}, r.takeIn clock envelope project) := by
    rw [process, Intake.process, if_pos hrefused, Relay.takeIn, Intake.takeIn_eq, if_pos hrefused]
    rfl
  have hkept : (r.takeIn clock envelope project).intake = _ := Intake.takeIn_eq ..
  rw [if_pos hrefused] at hkept
  refine ⟨_, _, hprocess, rfl, rfl, ?_, ?_, rfl⟩
  · rw [aggregator, hkept]
    rfl
  · rw [hkept]

/-- **A shutdown delivers every accepted value exactly once**, whatever comes before it and after it. -/
theorem shutdown_delivers (hsink : sink.Returns ok) {r₀ : Relay σ} (hfresh : Fresh ok r₀)
    {before : List Action} (hbefore : .shutdown ∉ before) (after : List Action) :
    ShutsDown sink r₀ before after := by
  obtain ⟨hphase, hbegun, hvisited⟩ := visited_before (r := r₀) sink hbefore (.shutdown :: after)
  rw [hfresh.running] at hphase hvisited
  rw [hfresh.unbegun] at hbegun
  have hsteady := (hfresh.steady.outlet_actAll hsink before).1
  obtain ⟨hreport, hstopped, hbegun'⟩ := hsteady.shutdown_eq hsink hbegun
  obtain ⟨-, hbegunEnd, hvisitedEnd⟩ := visited_after sink hbegun' after
  -- the relay after the shutdown
  have hafter : r₀.actAll sink (before ++ [.shutdown]) = ((r₀.actAll sink before).shutdown sink).2 :=
    actAll_append ..
  have hsteady' := (hfresh.steady.outlet_actAll hsink (before ++ [.shutdown])).1
  have hleft : (r₀.actAll sink (before ++ [.shutdown])).aggregator.stored = [] :=
    (hsteady'.ended (by rw [hafter]; exact hbegun')).2.2
  refine ⟨?_, hreport, Prod.ext rfl (aggregator_actAll sink r₀ before), ?_, ?_, ?_⟩
  · rw [hvisited, visited, passing, hbegun, hphase]
    change _ ++ .running :: .draining :: ((r₀.actAll sink before).shutdown sink).2.visited sink after = _
    rw [hvisitedEnd, hstopped, List.append_cons, ← List.replicate_succ']
  · refine (hfresh.steady.outlet_actAll hsink _).1.toOver ?_
    rw [List.append_cons, actAll_append, hafter]
    exact hbegunEnd
  · rw [(hfresh.steady.outlet_actAll hsink _).2, List.append_cons, handed_append,
      hsteady'.handed_of_begun hsink (by rw [hafter]; exact hbegun'), List.append_nil]
  · rw [aggregator_actAll] at hleft
    have hdelivered := delivered_of_run hfresh.wf hfresh.empty hleft r₀.partitions
    refine ⟨hdelivered.nonempty, hdelivered.scope, hdelivered.partition, ?_⟩
    intro k
    -- the shutdown itself accepts nothing
    have hnone : ((r₀.actAll sink before).history sink [.shutdown]).flatMap
        (acceptedBy r₀.aggregator.settings k) = [] := by
      rw [history, requestsAll, requests, hbegun]
      rfl
    have hvalues := hdelivered.values k
    change ∃ groups, List.flatten groups = (r₀.history sink (before ++ [.shutdown])).flatMap _ ∧ _ at hvalues
    rw [history_append, List.flatMap_append, hnone, List.append_nil] at hvalues
    exact hvalues

/-- Two projects submit lines, one of which is due before the shutdown; a later envelope is refused. -/
theorem shutdown_delivers_two_projects :
    let lines (project : UInt64) : Envelope :=
      ⟨project, none, 1700000000, [⟨.metrics, ascii "a:1|c\nb:2|c\na:3|c", false⟩]⟩
    let moving : Intake.Clock := fun _ n => 1700000000 + UInt64.ofNat n
    let before : List Action := [.process moving (lines 42) { scope := ⟨1, 42⟩ }, .tick 1700000040,
      .process (.still 1700000040) (lines 43) { scope := ⟨1, 43⟩ }]
    let after : List Action := [.process (.still 1700000050) (lines 42) { scope := ⟨1, 42⟩ }, .shutdown]
    let r : Relay Outlet := start {} 2 none 2 10000 (.receiver [] [])
    Outlet.sink.Returns (· ≠ .stuck) ∧ Fresh (· ≠ .stuck) r ∧ .shutdown ∉ before ∧
      ShutsDown Outlet.sink r before after ∧
      (match (r.actAll Outlet.sink (before ++ .shutdown :: after)).flush.outlet with
        | .receiver _ received => received.map fun b => (b.scope.project, b.buckets.length)
        | _ => []) = [(42, 2), (43, 2)] := by
  have hfresh : Fresh (· ≠ .stuck) (start {} 2 none 2 10000 (.receiver [] []) : Relay Outlet) :=
    fresh_start _ _ _ _ _ Outlet.noConfusion
  refine ⟨Outlet.returns, hfresh, by simp, ?_, by decide +kernel⟩
  exact shutdown_delivers Outlet.returns hfresh (by simp) _

end Relay

end Telemetry

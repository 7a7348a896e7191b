import Telemetry.Proofs.Flush.Interleaving
import Telemetry.Proofs.Relay.Shutdown

/-!
# Accounts of a relay

A round of the flush is one of the orders in which dispatches, workers and a shutdown can come: the
workers look only when there is something to take, each send comes back before the next one begins, and
one that blocks does not come back (`Mirrors`).  So the accounts that are kept in every order are kept
by every run of a relay (`batches_accounted`).
-/

namespace Telemetry

namespace Flush

open Pool (Call)
open Traffic (Sound)

variable {σ : Type} {n : Nat}

/-- The flush with other running batches. -/
def withRunning (running : List Batch) (f : Flush σ) : Flush σ :=
  { f with pool := { f.pool with running } }

theorem submit_withRunning (running : List Batch) (f : Flush σ) (b : Batch) :
    ((f.withRunning running).submit b).1 = (f.submit b).1.withRunning running := by
  cases hopen : f.pool.accepting <;> simp [submit, Pool.submit, withRunning, hopen]

theorem dispatch_snd (partitions : Option UInt64) (buckets : List (Bucket Float)) (f : Flush σ) :
    (f.dispatch partitions buckets).2 =
      (Batch.group partitions buckets).foldl (fun f b => (f.submit b).1) f :=
  (List.foldl_hom Prod.snd fun _ _ => rfl).symm

/-- The workers of one dispatch and one shutdown call have come to where a flush is: the counts and the
pool are the same, but for the order of the running batches, and the outlet has taken what was started. -/
structure Mirrors (sink : Sink σ) (o : σ) (formed pending : List Batch) (call : Call)
    (t : Traffic Unit Unit n) (f : Flush σ) : Prop where
  formed : t.formed = formed
  pending : t.pending () = pending
  call : t.crew.calls () = call
  flush : t.flush f.interval f.outlet = f.withRunning t.crew.pool.running
  running : t.crew.pool.running.Perm f.pool.running
  outlet : f.outlet = sink.takeAll t.crew.started o

namespace Mirrors

variable {sink : Sink σ} {o : σ} {formed pending : List Batch} {call : Call}
  {t : Traffic Unit Unit n} {f : Flush σ} {bounded : Unit → Bool}

theorem pool (h : Mirrors sink o formed pending call t f) :
    t.crew.pool = { f.pool with running := t.crew.pool.running } := congrArg Flush.pool h.flush

/-! ## Dispatches -/

theorem submit {b : Batch} {rest : List Batch} (h : Mirrors sink o formed (b :: rest) call t f) :
    Mirrors sink o formed rest call (t.step bounded (.submit ())) (f.submit b).1 := by
  have hflush := Traffic.flush_submit bounded h.pending f.interval f.outlet
  rw [h.flush, submit_withRunning] at hflush
  have hpool : (f.submit b).1.pool.running = f.pool.running := by
    cases hopen : f.pool.accepting <;> simp [Flush.submit, Pool.submit, hopen]
  have hrunning : (t.step bounded (.submit ())).crew.pool.running = t.crew.pool.running :=
    congrArg (fun g : Flush σ => g.pool.running) hflush
  rw [← hrunning] at hflush
  refine ⟨?_, ?_, ?_, hflush, ?_, ?_⟩
  · rw [Traffic.step, h.pending]
    exact h.formed
  · rw [Traffic.step, h.pending]
    exact Function.update_self () rest t.pending
  · rw [Traffic.step, h.pending]
    exact h.call
  · rw [hrunning, hpool]
    exact h.running
  · rw [Traffic.step, h.pending]
    exact h.outlet

theorem submits {batches : List Batch} (h : Mirrors sink o formed batches call t f) :
    Mirrors sink o formed [] call (t.run bounded (List.replicate batches.length (.submit ())))
      (batches.foldl (fun f b => (f.submit b).1) f) := by
  induction batches generalizing t f with
  | nil => exact h
  | cons b rest ih => exact ih h.submit

theorem dispatch (h : Mirrors sink o formed [] call t f) (buckets : List (Bucket Float)) :
    ∃ moves, Mirrors sink o (formed ++ Batch.group t.partitions buckets) [] call (t.run bounded moves)
      (f.dispatch t.partitions buckets).2 := by
  have hbegun : Mirrors sink o (formed ++ Batch.group t.partitions buckets)
      (Batch.group t.partitions buckets) call (t.step bounded (.dispatch () buckets)) f := by
    rw [Traffic.step, h.pending]
    exact ⟨congrArg (· ++ _) h.formed, Function.update_self () _ t.pending, h.call, h.flush, h.running,
      h.outlet⟩
  rw [dispatch_snd]
  exact ⟨.dispatch () buckets :: List.replicate _ (.submit ()), hbegun.submits⟩

/-! ## Sends -/

/-- A worker takes a batch, and the outlet gets it. -/
theorem look (h : Mirrors sink o formed [] call t f) (hsound : Sound bounded t) {w : Fin n}
    (hw : t.crew.workers w = .waiting) {b : Batch} {rest : List Batch} (hq : f.pool.queued = b :: rest) :
    (t.step bounded (.look w)).crew.workers w = .busy b ∧
      Mirrors sink o formed [] call (t.step bounded (.look w))
        { f with
          pool := { f.pool with queued := rest, running := f.pool.running ++ [b] }
          outlet := (sink.send b f.outlet).2 } := by
  have hqueued : t.crew.pool.queued = b :: rest := by rw [h.pool, hq]
  have hstep : t.step bounded (.look w) =
      { t with
        crew := { t.crew with
          pool := { t.crew.pool with queued := rest, running := t.crew.pool.running ++ [b] }
          active := t.crew.active + 1
          workers := Function.update t.crew.workers w (.busy b)
          started := t.crew.started ++ [b] } } := by
    rw [Traffic.step, Pool.Crew.step, hw, hqueued, ← hsound.tallied.take_eq hw hqueued]
  rw [hstep]
  refine ⟨Function.update_self w _ t.crew.workers, h.formed, h.pending, h.call, ?_, ?_, ?_⟩
  · exact congrArg (fun g : Flush σ => { g with
      pool := { g.pool with queued := rest, running := t.crew.pool.running ++ [b] }
      outlet := (sink.send b f.outlet).2 }) h.flush
  · exact h.running.append_right [b]
  · rw [Sink.takeAll_append, ← h.outlet]
    rfl

/-- The send that began last comes back. -/
theorem answer (h : Mirrors sink o formed [] call t f) (hsound : Sound bounded t) {w : Fin n} {b : Batch}
    (hw : t.crew.workers w = .busy b) {before : List Batch} (hlast : f.pool.running = before ++ [b])
    (failed : Bool) :
    Mirrors sink o formed [] call (t.step bounded (.answer w failed))
      { f with
        pool := f.pool.finishLast
        batchesSent := if failed then f.batchesSent else f.batchesSent + 1
        batchesFailed := if failed then f.batchesFailed + 1 else f.batchesFailed } := by
  have hfinish : f.pool.finishLast =
      { f.pool with running := before, finished := f.pool.finished ++ [b] } := by
    simp [Pool.finishLast, hlast]
  have hcrew : t.crew.step bounded (.finish w failed) =
      { t.crew with
        pool := { t.crew.pool with
          running := t.crew.pool.running.erase b
          finished := t.crew.pool.finished ++ [b] }
        active := t.crew.active - 1
        workers := Function.update t.crew.workers w .waiting } := by
    rw [Pool.Crew.step, hw, ← hsound.tallied.finish_eq hw]
  rw [Traffic.step, hw, hcrew, hfinish]
  refine ⟨h.formed, h.pending, h.call, ?_, ?_, h.outlet⟩
  · exact congrArg (fun g : Flush σ => { g with
      pool := { g.pool with
        running := t.crew.pool.running.erase b
        finished := g.pool.finished ++ [b] }
      batchesSent := if failed then g.batchesSent else g.batchesSent + 1
      batchesFailed := if failed then g.batchesFailed + 1 else g.batchesFailed }) h.flush
  · have hperm := h.running.erase b
    rw [hlast] at hperm
    refine hperm.trans ?_
    have hrotate := (List.perm_append_singleton b before).erase b
    rwa [List.erase_cons_head] at hrotate

/-- **A free worker sends the oldest batch** as the flush does. -/
theorem deliver (h : Mirrors sink o formed [] call t f) (hsound : Sound bounded t) {b : Batch}
    {rest : List Batch} (hq : f.pool.queued = b :: rest) (hfree : f.pool.hasFreeWorker = true) :
    ∃ moves, Mirrors sink o formed [] call (t.run bounded moves)
      (Flush.deliver sink b { f with pool := f.pool.take }) := by
  have hwaiting : ∃ w, t.crew.workers w = .waiting := by
    refine hsound.tallied.exists_waiting hsound.ruled ?_ ?_
    · rw [h.pool, hq]
      exact List.cons_ne_nil b rest
    · rw [Pool.hasFreeWorker, h.running.length_eq, h.pool]
      exact hfree
  obtain ⟨w, hw⟩ := hwaiting
  have htake : f.pool.take =
      { f.pool with queued := rest, running := f.pool.running ++ [b] } := by
    rw [Pool.take, hq]
    exact if_pos hfree
  obtain ⟨hbusy, htaken⟩ := h.look hsound hw hq
  have hback := htaken.answer (hsound.step (.look w)) hbusy rfl
  rw [Flush.deliver, htake]
  split <;> rename_i hsend
  · rw [hsend] at hback
    exact ⟨[.look w, .answer w false], hback false⟩
  · rw [hsend] at hback
    exact ⟨[.look w, .answer w true], hback true⟩
  · rw [hsend] at htaken
    exact ⟨[.look w], htaken⟩

theorem pump (h : Mirrors sink o formed [] call t f) (hsound : Sound bounded t) {queue : List Batch}
    (hqueue : f.pool.queued = queue) :
    ∃ moves, Mirrors sink o formed [] call (t.run bounded moves) (Flush.pump sink queue f) := by
  induction queue generalizing t f with
  | nil => exact ⟨[], h⟩
  | cons b rest ih =>
    rw [Flush.pump]
    split
    · next hfree =>
      obtain ⟨moves, hone⟩ := h.deliver hsound hqueue hfree
      have hrest : (Flush.deliver sink b { f with pool := f.pool.take }).pool.queued = rest := by
        rw [(deliver_frame sink b _).2.1, Pool.take, hqueue]
        exact congrArg Pool.queued (if_pos hfree)
      obtain ⟨more, hmore⟩ := ih hone (hsound.run moves) hrest
      refine ⟨moves ++ more, ?_⟩
      rw [Traffic.run_append]
      exact hmore
    · exact ⟨[], h⟩

/-- A dispatch, and the sends that it makes possible. -/
theorem round (h : Mirrors sink o formed [] call t f) (hsound : Sound bounded t)
    (buckets : List (Bucket Float)) :
    ∃ moves, Mirrors sink o (formed ++ Batch.group t.partitions buckets) [] call (t.run bounded moves)
      ((f.dispatch t.partitions buckets).2.run sink) := by
  obtain ⟨moves, hdispatched⟩ := h.dispatch buckets
  obtain ⟨more, hsent⟩ := hdispatched.pump (hsound.run moves) rfl
  refine ⟨moves ++ more, ?_⟩
  rw [Traffic.run_append]
  exact hsent

/-! ## The end -/

/-- A wait whose time is over ends, and what is queued is given up if the pool is not idle. -/
theorem endWait (h : Mirrors sink o formed [] .waiting t f) (hsound : Sound bounded t) :
    ∃ call, Mirrors sink o formed [] call (t.run bounded [.endWait (), .giveUp ()])
      { f with pool := f.pool.endWait.2 } := by
  have hidle : (t.crew.pool.queued.isEmpty && t.crew.active == 0) = f.pool.isIdle := by
    rw [← hsound.tallied.isIdle_eq, Pool.isIdle, h.running.isEmpty_eq, h.pool]
    rfl
  have hended : t.crew.step bounded (.endWait ()) =
      { t.crew with
        calls := Function.update t.crew.calls () (if f.pool.isIdle then .joining else .expired) } := by
    rw [Pool.Crew.step, h.call, hidle]
  change ∃ call, Mirrors sink o formed [] call
    { t with crew := (t.crew.step bounded (.endWait ())).step bounded (.giveUp ()) } _
  rw [hended, Pool.endWait]
  cases f.pool.isIdle with
  | true => exact ⟨.joining, h.formed, h.pending, rfl, h.flush, h.running, h.outlet⟩
  | false =>
    refine ⟨.returned false, h.formed, h.pending, rfl, ?_, h.running, h.outlet⟩
    exact congrArg (fun g : Flush σ => { g with pool := g.pool.abandon }) h.flush

theorem shutdown (h : Mirrors sink o formed [] .unbegun t f) (hsound : Sound bounded t)
    (hbounded : bounded () = true) :
    ∃ moves call, Mirrors sink o formed [] call (t.run bounded moves) (f.shutdown sink).2 := by
  have hbegin : t.crew.step bounded (.begin ()) =
      { t.crew with
        pool := t.crew.pool.close
        calls := Function.update t.crew.calls () .waiting } := by
    rw [Pool.Crew.step, h.call, hbounded]
    rfl
  have hbegun : Mirrors sink o formed [] .waiting (t.step bounded (.begin ()))
      { f with pool := f.pool.close } := by
    rw [Traffic.step, hbegin]
    refine ⟨h.formed, h.pending, rfl, ?_, h.running, h.outlet⟩
    exact congrArg (fun g : Flush σ => { g with pool := g.pool.close }) h.flush
  obtain ⟨moves, hsent⟩ := hbegun.pump (hsound.step (.begin ())) rfl
  obtain ⟨call, hended⟩ := hsent.endWait ((hsound.step (.begin ())).run moves)
  refine ⟨.begin () :: moves ++ [.endWait (), .giveUp ()], call, ?_⟩
  rw [Traffic.run_append]
  exact hended

end Mirrors

/-- Each batch that was handed over is counted, given up, queued or on its way, and its buckets are
counted. -/
structure Balances (handed : List Batch) (f : Flush σ) : Prop where
  counted : f.batchesSent + f.batchesFailed + f.pool.discarded.length +
    (f.pool.queued.length + f.pool.running.length) = handed.length
  flushed : f.bucketsFlushed = (handed.map fun b => b.buckets.length).sum

theorem Mirrors.balances {sink : Sink σ} {o : σ} {formed : List Batch} {call : Call}
    {t : Traffic Unit Unit n} {f : Flush σ} {bounded : Unit → Bool}
    (h : Mirrors sink o formed [] call t f) (hsound : Sound bounded t) : f.Balances formed := by
  have hcounted := hsound.counted fun _ => h.pending
  have hflushed := hsound.flushed fun _ => h.pending
  have hflush := h.flush
  rw [hsound.tallied.active, h.running.length_eq, h.pool, h.formed] at hcounted
  rw [h.formed] at hflushed
  simp only [Traffic.flush, withRunning, Flush.mk.injEq] at hflush
  obtain ⟨-, -, -, hbuckets, hsent, hfailed⟩ := hflush
  exact ⟨by rw [← hsent, ← hfailed]; exact hcounted, by rw [← hbuckets]; exact hflushed⟩

end Flush

namespace Relay

open Flush (Mirrors Traffic)
open Flush.Traffic (Sound)

variable {σ : Type} {n : Nat} {sink : Sink σ} {o : σ} {formed : List Batch} {call : Pool.Call}
  {t : Traffic Unit Unit n} {bounded : Unit → Bool} {r : Relay σ}

/-! ## Runs -/

/-- **An action goes one of the ways that the dispatches, the workers and the shutdown can go.** -/
theorem act_mirrored (h : Mirrors sink o formed [] call t r.flush) (hsound : Sound bounded t)
    (hpartitions : t.partitions = r.partitions) (hunbegun : r.shutdownBegun = false → call = .unbegun)
    (hbounded : bounded () = true) (action : Action) :
    ∃ moves call', Mirrors sink o
        (formed ++ (r.aggregator.run (r.requests action)).1.flatMap (outgoing r.partitions)) [] call'
        (t.run bounded moves) (r.act sink action).flush ∧
      ((r.act sink action).shutdownBegun = false → call' = .unbegun) := by
  cases action with
  | process clock envelope project =>
    rw [requests, outgoing_submissions _ _ submission_of_takeIn, List.append_nil]
    exact ⟨[], call, h, hunbegun⟩
  | tick now =>
    obtain ⟨moves, hround⟩ := h.round hsound (r.aggregator.drainDue now).1
    rw [hpartitions] at hround
    refine ⟨moves, call, ?_, hunbegun⟩
    change Mirrors sink o (formed ++ (Batch.group r.partitions (r.aggregator.drainDue now).1 ++ [])) [] call _
      (r.tick sink now).2.flush
    rw [List.append_nil, tick_snd]
    exact hround
  | shutdown =>
    cases hbegun : r.shutdownBegun with
    | true =>
      rw [act, shutdown_of_begun hbegun, requests, if_pos hbegun]
      refine ⟨[], call, ?_, hunbegun⟩
      change Mirrors sink o (formed ++ []) [] call t r.flush
      rw [List.append_nil]
      exact h
    | false =>
      obtain rfl := hunbegun hbegun
      obtain ⟨moves, hround⟩ := h.round hsound r.aggregator.drainAll.1
      obtain ⟨more, call', hended⟩ := hround.shutdown (hsound.run moves) hbounded
      rw [hpartitions] at hended
      rw [act, shutdown_of_unbegun hbegun, requests, hbegun]
      refine ⟨moves ++ more, call', ?_, Bool.noConfusion⟩
      change Mirrors sink o (formed ++ (Batch.group r.partitions r.aggregator.drainAll.1 ++ [])) [] call' _
        ((r.lastFlush sink).shutdown sink).2
      rw [List.append_nil, Traffic.run_append]
      exact hended

theorem actAll_mirrored (h : Mirrors sink o formed [] call t r.flush) (hsound : Sound bounded t)
    (hpartitions : t.partitions = r.partitions) (hunbegun : r.shutdownBegun = false → call = .unbegun)
    (hbounded : bounded () = true) (actions : List Action) :
    ∃ moves call', Mirrors sink o (formed ++ r.handed sink actions) [] call' (t.run bounded moves)
      (r.actAll sink actions).flush := by
  induction actions generalizing r t formed call with
  | nil =>
    refine ⟨[], call, ?_⟩
    change Mirrors sink o (formed ++ []) [] call t r.flush
    rw [List.append_nil]
    exact h
  | cons action rest ih =>
    obtain ⟨moves, call', hone, hunbegun'⟩ := act_mirrored h hsound hpartitions hunbegun hbounded action
    have hpartitions' : (t.run bounded moves).partitions = (r.act sink action).partitions := by
      rw [Traffic.partitions_run, partitions_act, hpartitions]
    obtain ⟨more, call'', hall⟩ := ih hone (hsound.run moves) hpartitions' hunbegun'
    refine ⟨moves ++ more, call'', ?_⟩
    rw [handed, partitions_act] at hall
    rw [Traffic.run_append, handed, history_cons, List.flatMap_append, ← List.append_assoc]
    exact hall

theorem mirrors_start (sink : Sink σ) (settings : Aggregator.Settings) (shards : Nat)
    (partitions : Option UInt64) (workers : Nat) (interval : Int) (outlet : σ) :
    Mirrors sink outlet [] [] .unbegun (Traffic.start partitions workers)
      (start settings shards partitions workers interval outlet).flush :=
  ⟨rfl, rfl, rfl, rfl, .nil, rfl⟩

/-- **What a dispatch formed is sent, failed or given up, and only what was given up is not counted**,
whatever the order in which dispatches, workers and shutdowns come.  Which sends fail changes nothing
for the others, and the runs of a relay are among these orders. -/
theorem batches_accounted (partitions : Option UInt64) (workers : Nat) :
    (∀ {δ κ : Type} [Fintype δ] [DecidableEq δ] [DecidableEq κ] (bounded : κ → Bool)
      (moves : List (Flush.Move δ κ _)),
      ((Traffic.start partitions workers : Traffic δ κ _).run bounded moves).Accounted bounded) ∧
    (∀ {δ κ : Type} [DecidableEq δ] [DecidableEq κ] (bounded : κ → Bool)
      (moves moves' : List (Flush.Move δ κ _)),
      moves.map Traffic.unfailing = moves'.map Traffic.unfailing →
      ((Traffic.start partitions workers : Traffic δ κ _).run bounded moves).withoutAnswers =
        ((Traffic.start partitions workers).run bounded moves').withoutAnswers) ∧
    ∀ {σ : Type} (sink : Sink σ) (settings : Aggregator.Settings) (shards : Nat) (interval : Int)
      (outlet : σ) (actions : List Action),
      let r := start settings shards partitions workers interval outlet
      (r.actAll sink actions).flush.Balances (r.handed sink actions) ∧
      ∃ moves call, Mirrors sink outlet (r.handed sink actions) [] call
        ((Traffic.start partitions workers).run (fun _ => true) moves) (r.actAll sink actions).flush := by
  refine ⟨?_, ?_, ?_⟩
  · intro δ κ _ _ _ bounded moves
    have hsound : Sound bounded (Traffic.start partitions workers : Traffic δ κ _) :=
      .start partitions workers
    exact (hsound.run moves).accounted
  · intro δ κ _ _ bounded moves moves' hmoves
    exact Traffic.withoutAnswers_run bounded rfl hmoves
  · intro σ sink settings shards interval outlet actions r
    have hsound : Sound (fun _ => true) (Traffic.start partitions workers : Traffic Unit Unit _) :=
      .start partitions workers
    obtain ⟨moves, call, hend⟩ := actAll_mirrored
      (mirrors_start sink settings shards partitions workers interval outlet) hsound rfl
      (fun _ => rfl) rfl actions
    rw [List.nil_append] at hend
    exact ⟨hend.balances (hsound.run moves), moves, call, hend⟩

/-- Two batches are formed, and the send of the first one comes back after a bounded shutdown has run out
of time: then nothing is queued or on its way, and the second batch is neither sent nor failed.  A flush
into an outlet that blocks gives it up in the same way. -/
theorem given_up_uncounted :
    let bucket (project : UInt64) : Bucket Float :=
      ⟨⟨⟨1, project⟩, ascii "s:custom/a@none", [], 1700000000⟩, 10, .set .empty⟩
    let buckets := [bucket 42, bucket 43]
    let worker : Fin (Pool.create 1 : Pool Batch).workers := ⟨0, by decide⟩
    let t : Traffic Unit Unit _ := (Traffic.start none 1).run (fun _ => true)
      [.dispatch () buckets, .submit (), .submit (), .look worker, .begin (), .endWait (), .giveUp (),
        .answer worker false]
    let f := Flush.shutdown Outlet.sink
      (Flush.dispatch none buckets ⟨10000, .create 1, .stuck, 0, 0, 0⟩).2
    (t.Quiet ∧ t.crew.calls () = .returned false ∧ t.formed.length = 2 ∧
      t.batchesSent = 1 ∧ t.batchesFailed = 0) ∧
    f.1 = false ∧ f.2.bucketsFlushed = 2 ∧ f.2.pool.running.length = 1 ∧ f.2.pool.queued = [] ∧
      f.2.pool.discarded.length = 1 ∧ f.2.batchesSent = 0 ∧ f.2.batchesFailed = 0 := by
  refine ⟨⟨⟨?_, ?_, ?_⟩, ?_⟩, ?_⟩ <;> decide +kernel

end Relay

end Telemetry

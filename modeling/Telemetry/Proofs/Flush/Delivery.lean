import Telemetry.Proofs.Flush.Custody

/-!
# Batches that all arrive

If every send comes back, a flush whose workers are free hands over all batches that it is given, in
their order, and its workers are free again (`Ready.dispatch`).  A shutdown of such a flush is in time.
-/

namespace Telemetry

variable {σ : Type} {sink : Sink σ} {ok : σ → Prop}

/-- From some states every send comes back, sent or failed, to such a state. -/
structure Sink.Returns (sink : Sink σ) (ok : σ → Prop) : Prop where
  returns : ∀ b {o}, ok o → (sink.send b o).1 ≠ .blocked
  keeps : ∀ b {o}, ok o → ok (sink.send b o).2

/-! ## Outlets -/

theorem TextFile.addLine_returns (line : Bytes) (f : TextFile) : (f.addLine line).1 ≠ .blocked := by
  unfold addLine
  split <;> exact Delivery.noConfusion

theorem TextFile.addBatch_returns (b : Batch) (f : TextFile) : (f.addBatch b).1 ≠ .blocked := by
  unfold addBatch
  split
  · exact addLine_returns _ f
  · exact Delivery.noConfusion

theorem TopicFiles.addMessage_returns (topic key text : Bytes) (t : TopicFiles) :
    (t.addMessage topic key text).1 ≠ .blocked := by
  unfold addMessage
  split
  · exact TextFile.addLine_returns _ _
  · exact Delivery.noConfusion

theorem TopicFiles.addBuckets_returns (topic key : Bytes) (buckets : List (Bucket Float))
    (t : TopicFiles) : (t.addBuckets topic key buckets).1 ≠ .blocked := by
  induction buckets generalizing t with
  | nil => exact Delivery.noConfusion
  | cons b rest ih =>
    rw [addBuckets]
    split
    · exact Delivery.noConfusion
    · next text _ =>
      have hback := addMessage_returns topic key text t
      split
      · exact ih _
      · next h =>
        rw [h] at hback
        exact hback

/-- Only the outlet that is meant to blocks. -/
theorem Outlet.returns : Outlet.sink.Returns (· ≠ .stuck) where
  returns b o ho := by
    cases o with
    | discard => exact Delivery.noConfusion
    | receiver refused received =>
      change (Outlet.send b (.receiver refused received)).1 ≠ .blocked
      rw [send]
      split <;> exact Delivery.noConfusion
    | stuck => exact absurd rfl ho
    | file f => exact TextFile.addBatch_returns b f
    | topics router files => exact TopicFiles.addBuckets_returns _ _ _ files
  keeps b o ho := by
    cases o with
    | discard => exact Outlet.noConfusion
    | receiver refused received =>
      change (Outlet.send b (.receiver refused received)).2 ≠ .stuck
      rw [send]
      split <;> exact Outlet.noConfusion
    | stuck => exact absurd rfl ho
    | file f => exact Outlet.noConfusion
    | topics router files => exact Outlet.noConfusion

namespace Flush

variable {f : Flush σ}

/-- Nothing is queued or on its way, and the next send comes back. -/
structure Ready (ok : σ → Prop) (f : Flush σ) : Prop where
  workers : 0 < f.pool.workers
  queued : f.pool.queued = []
  running : f.pool.running = []
  outlet : ok f.outlet

/-! ## Sending -/

theorem deliver_eq (hsink : sink.Returns ok) (hok : ok f.outlet) (b : Batch) :
    (deliver sink b f).pool = f.pool.finishLast := by
  have hback := hsink.returns b hok
  rw [deliver]
  split <;> rename_i h
  · rfl
  · rfl
  · rw [h] at hback
    exact absurd rfl hback

theorem take_finishLast {τ : Type} {p : Pool τ} {t : τ} {rest : List τ} (hworkers : 0 < p.workers)
    (hrunning : p.running = []) (hqueued : p.queued = t :: rest) :
    p.take.finishLast = { p with queued := rest, finished := p.finished ++ [t] } := by
  have hfree : p.hasFreeWorker = true := by simpa [Pool.hasFreeWorker, hrunning] using hworkers
  simp [Pool.take, Pool.finishLast, hqueued, hfree, hrunning]

theorem settle_eq_self {τ : Type} {p : Pool τ} (hqueued : p.queued = []) (hrunning : p.running = []) :
    p.settle = p := by
  cases p
  cases hqueued
  cases hrunning
  simp [Pool.settle]

/-- **Free workers send the whole queue** in its order. -/
theorem pump_eq (hsink : sink.Returns ok) {queue : List Batch} (hworkers : 0 < f.pool.workers)
    (hrunning : f.pool.running = []) (hqueued : f.pool.queued = queue) (hok : ok f.outlet) :
    (pump sink queue f).pool = f.pool.settle ∧
      (pump sink queue f).outlet = sink.takeAll queue f.outlet ∧ ok (pump sink queue f).outlet := by
  induction queue generalizing f with
  | nil => exact ⟨(settle_eq_self hqueued hrunning).symm, rfl, hok⟩
  | cons b rest ih =>
    have hfree : f.pool.hasFreeWorker = true := by
      simpa [Pool.hasFreeWorker, hrunning] using hworkers
    have hpool := deliver_eq (f := { f with pool := f.pool.take }) hsink hok b
    have houtlet := (deliver_frame sink b { f with pool := f.pool.take }).1
    rw [take_finishLast hworkers hrunning hqueued] at hpool
    have hnext := ih (f := deliver sink b { f with pool := f.pool.take }) (by rw [hpool]; exact hworkers)
      (by rw [hpool]; exact hrunning) (by rw [hpool]) (by rw [houtlet]; exact hsink.keeps b hok)
    rw [pump, if_pos hfree]
    rw [hpool, houtlet] at hnext
    refine ⟨hnext.1.trans ?_, hnext.2⟩
    simp [Pool.settle, hqueued, hrunning]

/-! ## What a ready flush does -/

namespace Ready

/-- **All that is dispatched is handed over**, and the flush is ready for more. -/
theorem dispatch (h : f.Ready ok) (hsink : sink.Returns ok) (hopen : f.pool.accepting = true)
    (partitions : Option UInt64) (buckets : List (Bucket Float)) :
    ((f.dispatch partitions buckets).2.run sink).Ready ok ∧
      ((f.dispatch partitions buckets).2.run sink).pool.accepting = true ∧
      ((f.dispatch partitions buckets).2.run sink).outlet =
        sink.takeAll (Batch.group partitions buckets) f.outlet := by
  obtain ⟨hpool, houtlet⟩ := dispatch_eq hopen partitions buckets
  rw [h.queued, List.nil_append] at hpool
  obtain ⟨hsettled, hsent, hok⟩ := pump_eq (f := (f.dispatch partitions buckets).2) hsink
    (by rw [hpool]; exact h.workers) (by rw [hpool]; exact h.running) (by rw [hpool])
    (by rw [houtlet]; exact h.outlet)
  rw [run, hpool]
  rw [hpool] at hsettled
  rw [houtlet] at hsent
  refine ⟨⟨?_, ?_, ?_, hok⟩, ?_, hsent⟩
  · rw [hsettled]
    exact h.workers
  · rw [hsettled]
    rfl
  · rw [hsettled]
    rfl
  · rw [hsettled]
    exact hopen

theorem shutdown (h : f.Ready ok) : f.shutdown sink = (true, { f with pool := f.pool.close }) := by
  have hrun : run sink { f with pool := f.pool.close } = { f with pool := f.pool.close } := by
    change pump sink f.pool.queued _ = _
    rw [h.queued]
    rfl
  have hidle : f.pool.close.isIdle = true := by simp [Pool.isIdle, Pool.close, h.queued, h.running]
  simp only [Flush.shutdown, hrun, Pool.endWait, hidle, ↓reduceIte]

theorem dispatch_nil (h : f.Ready ok) (partitions : Option UInt64) :
    (f.dispatch partitions []).2.run sink = f := by
  change pump sink f.pool.queued f = f
  rw [h.queued]
  rfl

end Ready

end Flush

end Telemetry

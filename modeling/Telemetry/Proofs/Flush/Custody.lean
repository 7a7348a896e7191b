import Telemetry.Flush

/-!
# What becomes of batches

Whatever an outlet does, even if its sends do not come back, a batch that an open flush was given is
handed to the outlet, still queued or given up (`Sends`), and each round and the shutdown account for
their batches in this way.
-/

namespace Telemetry

open scoped List

variable {σ : Type} {sink : Sink σ}

/-- The state after some batches were handed over, one after another. -/
def Sink.takeAll (sink : Sink σ) (batches : List Batch) (o : σ) : σ :=
  batches.foldl (fun o b => (sink.send b o).2) o

theorem Sink.takeAll_append (sink : Sink σ) (batches more : List Batch) (o : σ) :
    sink.takeAll (batches ++ more) o = sink.takeAll more (sink.takeAll batches o) := List.foldl_append

namespace Flush

variable {f f' f'' : Flush σ} {partitions : Option UInt64}

/-- From one state of a flush to another, the outlet has taken some batches in turn, and some were given
up; together with those that are queued now, they are those that were queued and some more. -/
def Sends (sink : Sink σ) (batches : List Batch) (f f' : Flush σ) : Prop :=
  ∃ taken lost, f'.outlet = sink.takeAll taken f.outlet ∧
    f'.pool.discarded = f.pool.discarded ++ lost ∧
    (taken ++ lost ++ f'.pool.queued).Perm (f.pool.queued ++ batches)

theorem Sends.refl (sink : Sink σ) (f : Flush σ) : Sends sink [] f f :=
  ⟨[], [], rfl, (List.append_nil _).symm, by simp⟩

theorem Sends.trans {batches more : List Batch} (h : Sends sink batches f f')
    (h' : Sends sink more f' f'') : Sends sink (batches ++ more) f f'' := by
  obtain ⟨taken, lost, houtlet, hdiscarded, hperm⟩ := h
  obtain ⟨taken', lost', houtlet', hdiscarded', hperm'⟩ := h'
  refine ⟨taken ++ taken', lost ++ lost', ?_, ?_, ?_⟩
  · rw [houtlet', houtlet, Sink.takeAll_append]
  · rw [hdiscarded', hdiscarded, List.append_assoc]
  · calc
      taken ++ taken' ++ (lost ++ lost') ++ f''.pool.queued
        = taken ++ (taken' ++ lost) ++ (lost' ++ f''.pool.queued) := by simp only [List.append_assoc]
      _ ~ taken ++ (lost ++ taken') ++ (lost' ++ f''.pool.queued) :=
          (List.perm_append_comm.append_left taken).append_right _
      _ = taken ++ lost ++ (taken' ++ lost' ++ f''.pool.queued) := by simp only [List.append_assoc]
      _ ~ taken ++ lost ++ (f'.pool.queued ++ more) := hperm'.append_left _
      _ = taken ++ lost ++ f'.pool.queued ++ more := (List.append_assoc ..).symm
      _ ~ f.pool.queued ++ batches ++ more := hperm.append_right more
      _ = f.pool.queued ++ (batches ++ more) := List.append_assoc ..

/-! ## Rounds -/

/-- A send leaves the queue alone, whether it comes back or not. -/
theorem deliver_frame (sink : Sink σ) (b : Batch) (f : Flush σ) :
    (deliver sink b f).outlet = (sink.send b f.outlet).2 ∧
      (deliver sink b f).pool.queued = f.pool.queued ∧
      (deliver sink b f).pool.discarded = f.pool.discarded ∧
      (deliver sink b f).pool.accepting = f.pool.accepting := by
  have hfinish : f.pool.finishLast.queued = f.pool.queued ∧
      f.pool.finishLast.discarded = f.pool.discarded ∧
      f.pool.finishLast.accepting = f.pool.accepting := by
    unfold Pool.finishLast
    split <;> exact ⟨rfl, rfl, rfl⟩
  rw [deliver]
  split <;> rename_i h <;> rw [h]
  · exact ⟨rfl, hfinish⟩
  · exact ⟨rfl, hfinish⟩
  · exact ⟨rfl, rfl, rfl, rfl⟩

/-- **Workers take the front of the queue** and leave the rest. -/
theorem pump_sends {queue : List Batch} (hqueued : f.pool.queued = queue) :
    Sends sink [] f (pump sink queue f) ∧
      (pump sink queue f).pool.accepting = f.pool.accepting := by
  induction queue generalizing f with
  | nil => exact ⟨.refl sink f, rfl⟩
  | cons b rest ih =>
    rw [pump]
    split
    · next hfree =>
      have htake : f.pool.take =
          { f.pool with queued := rest, running := f.pool.running ++ [b] } := by
        rw [Pool.take, hqueued]
        exact if_pos hfree
      obtain ⟨houtlet, hrest, hdiscarded, haccepting⟩ :=
        deliver_frame sink b { f with pool := f.pool.take }
      rw [htake] at houtlet hrest hdiscarded haccepting
      have hone : Sends sink [] f (deliver sink b { f with pool := f.pool.take }) := by
        refine ⟨[b], [], ?_, ?_, ?_⟩
        · rw [htake, houtlet]
          rfl
        · rw [htake, hdiscarded, List.append_nil]
        · rw [htake, hrest, hqueued, List.append_nil, List.append_nil]
          exact .refl _
      obtain ⟨hsends, hopen⟩ := ih (f := deliver sink b { f with pool := f.pool.take })
        (by rw [htake, hrest])
      refine ⟨hone.trans hsends, hopen.trans ?_⟩
      rw [htake, haccepting]
    · exact ⟨.refl sink f, rfl⟩

theorem run_sends (sink : Sink σ) (f : Flush σ) :
    Sends sink [] f (f.run sink) ∧ (f.run sink).pool.accepting = f.pool.accepting := pump_sends rfl

/-- What is dispatched through an open pool is queued. -/
theorem dispatch_eq (hopen : f.pool.accepting = true) (partitions : Option UInt64)
    (buckets : List (Bucket Float)) :
    (f.dispatch partitions buckets).2.pool =
        { f.pool with queued := f.pool.queued ++ Batch.group partitions buckets } ∧
      (f.dispatch partitions buckets).2.outlet = f.outlet := by
  unfold dispatch
  -- the number of accepted batches plays no part
  generalize (0 : Nat) = n
  induction Batch.group partitions buckets generalizing n f with
  | nil => simp
  | cons b rest ih =>
    have hsubmit : f.pool.submit b = (true, { f.pool with queued := f.pool.queued ++ [b] }) :=
      if_pos hopen
    have hnext := ih (f := (f.submit b).1) (by simpa [submit, hsubmit] using hopen) (n + 1)
    rw [List.foldl_cons]
    simp only [submit, hsubmit, ↓reduceIte] at hnext ⊢
    simpa using hnext

/-- **A round sends its batches**, and the pool stays open. -/
theorem dispatch_sends (sink : Sink σ) (hopen : f.pool.accepting = true) (partitions : Option UInt64)
    (buckets : List (Bucket Float)) :
    Sends sink (Batch.group partitions buckets) f ((f.dispatch partitions buckets).2.run sink) ∧
      ((f.dispatch partitions buckets).2.run sink).pool.accepting = true := by
  obtain ⟨hpool, houtlet⟩ := dispatch_eq hopen partitions buckets
  have hqueue : Sends sink (Batch.group partitions buckets) f (f.dispatch partitions buckets).2 := by
    refine ⟨[], [], houtlet, ?_, ?_⟩
    · rw [hpool, List.append_nil]
    · rw [hpool]
      exact .refl _
  obtain ⟨hsends, haccepting⟩ := run_sends sink (f.dispatch partitions buckets).2
  rw [hpool] at haccepting
  refine ⟨?_, haccepting.trans hopen⟩
  have hboth := hqueue.trans hsends
  rwa [List.append_nil] at hboth

/-! ## The end -/

/-- **A shutdown sends what is queued or gives it up.** -/
theorem shutdown_sends (sink : Sink σ) (f : Flush σ) : Sends sink [] f (f.shutdown sink).2 := by
  have hclose : Sends sink [] f { f with pool := f.pool.close } := .refl sink f
  have hrun := (run_sends sink { f with pool := f.pool.close }).1
  have hend : Sends sink [] (run sink { f with pool := f.pool.close }) (f.shutdown sink).2 := by
    unfold shutdown
    generalize run sink { f with pool := f.pool.close } = g
    dsimp only
    cases hidle : g.pool.isIdle with
    | true =>
      rw [Pool.endWait, hidle]
      exact .refl sink g
    | false =>
      rw [Pool.endWait, hidle]
      exact ⟨[], g.pool.queued, rfl, rfl, by simp [Pool.abandon]⟩
  exact (hclose.trans hrun).trans hend

end Flush

end Telemetry

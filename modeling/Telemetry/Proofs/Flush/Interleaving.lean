import Mathlib.Algebra.GroupWithZero.Nat
import Telemetry.Flush
import Telemetry.Proofs.Pool.Interleaving

/-!
# A flush while its workers send

Dispatches form batches and submit them one by one, workers take batches and send them, sends come back
or do not, and calls shut the pool down; all of this comes in any order.  A submission with its counts is
one step, and so is the end of a send with its own: nothing reads the counts in between.

The pool says what has become of the accepted batches (`Pool.Crew`).  Beside it one invariant carries the
accounts, `Balanced`: a batch that was formed is still to be submitted, accepted or refused, and what was
counted as sent or failed are the sends that came back and the refusals.  Nothing counts the batches that
are given up (`Accounted`).  The answers of the sends decide nothing else (`withoutAnswers_run`).
-/

namespace Telemetry.Flush

open Pool (Call)

variable {δ κ σ : Type} {n : Nat}

/-- A flush with its workers, the dispatches under way, and what has happened so far. -/
structure Traffic (δ κ : Type) (n : Nat) where
  partitions : Option UInt64
  crew : Pool.Crew Batch κ n
  /-- What a dispatch has not submitted yet. -/
  pending : δ → List Batch
  bucketsFlushed : Nat := 0
  batchesSent : Nat := 0
  batchesFailed : Nat := 0
  /-- The batches of all dispatches. -/
  formed : List Batch := []
  /-- The batches that the closed pool did not take. -/
  refused : List Batch := []
  /-- The batches whose sends came back without an error. -/
  delivered : List Batch := []
  /-- The batches whose sends came back with an error. -/
  failed : List Batch := []

/-- What can happen next. -/
inductive Move (δ κ : Type) (n : Nat) where
  /-- A dispatch begins, of buckets that are due or that are left. -/
  | dispatch (d : δ) (buckets : List (Bucket Float))
  /-- A dispatch submits its next batch. -/
  | submit (d : δ)
  /-- A worker takes the oldest batch and hands it to the sink, or goes. -/
  | look (w : Fin n)
  /-- The send of a worker comes back, with an error or without. -/
  | answer (w : Fin n) (failed : Bool)
  | begin (k : κ)
  | endWait (k : κ)
  | giveUp (k : κ)
  | join (k : κ)

namespace Traffic

/-- Nothing was dispatched, and no call has begun. -/
def start (partitions : Option UInt64) (workers : Nat) :
    Traffic δ κ (Pool.create workers : Pool Batch).workers :=
  { partitions, crew := .start workers, pending := fun _ => [] }

/-- The flush as the dispatches see it. -/
def flush (t : Traffic δ κ n) (interval : Int) (outlet : σ) : Flush σ where
  interval
  pool := t.crew.pool
  outlet
  bucketsFlushed := t.bucketsFlushed
  batchesSent := t.batchesSent
  batchesFailed := t.batchesFailed

section Steps

variable [DecidableEq δ] [DecidableEq κ] (bounded : κ → Bool)

/-- One step; one that is not possible does nothing. -/
def step (t : Traffic δ κ n) : Move δ κ n → Traffic δ κ n
  | .dispatch d buckets => match t.pending d with
    | [] =>
      { t with
        pending := Function.update t.pending d (Batch.group t.partitions buckets)
        formed := t.formed ++ Batch.group t.partitions buckets }
    | _ :: _ => t
  | .submit d => match t.pending d with
    | [] => t
    | b :: rest =>
      let accepted := t.crew.pool.accepting
      { t with
        crew := t.crew.step bounded (.submit b)
        pending := Function.update t.pending d rest
        bucketsFlushed := t.bucketsFlushed + b.buckets.length
        batchesFailed := if accepted then t.batchesFailed else t.batchesFailed + 1
        refused := if accepted then t.refused else t.refused ++ [b] }
  | .answer w failed => match t.crew.workers w with
    | .busy b =>
      { t with
        crew := t.crew.step bounded (.finish w failed)
        batchesSent := if failed then t.batchesSent else t.batchesSent + 1
        batchesFailed := if failed then t.batchesFailed + 1 else t.batchesFailed
        delivered := if failed then t.delivered else t.delivered ++ [b]
        failed := if failed then t.failed ++ [b] else t.failed }
    | _ => t
  | .look w => { t with crew := t.crew.step bounded (.look w) }
  | .begin k => { t with crew := t.crew.step bounded (.begin k) }
  | .endWait k => { t with crew := t.crew.step bounded (.endWait k) }
  | .giveUp k => { t with crew := t.crew.step bounded (.giveUp k) }
  | .join k => { t with crew := t.crew.step bounded (.join k) }

def run (t : Traffic δ κ n) (moves : List (Move δ κ n)) : Traffic δ κ n := moves.foldl (step bounded) t

theorem run_append (t : Traffic δ κ n) (moves more : List (Move δ κ n)) :
    t.run bounded (moves ++ more) = (t.run bounded moves).run bounded more := List.foldl_append

theorem partitions_step (t : Traffic δ κ n) (move : Move δ κ n) :
    (t.step bounded move).partitions = t.partitions := by
  cases move with
  | dispatch d buckets | submit d | answer w failed =>
    rw [step]
    split <;> rfl
  | look w | begin k | endWait k | giveUp k | join k => rfl

theorem partitions_run (t : Traffic δ κ n) (moves : List (Move δ κ n)) :
    (t.run bounded moves).partitions = t.partitions := by
  induction moves generalizing t with
  | nil => rfl
  | cons move rest ih => exact (ih _).trans (partitions_step bounded t move)

/-- A dispatch submits as the flush does. -/
theorem flush_submit {t : Traffic δ κ n} {d : δ} {b : Batch} {rest : List Batch}
    (h : t.pending d = b :: rest) (interval : Int) (outlet : σ) :
    (t.step bounded (.submit d)).flush interval outlet = ((t.flush interval outlet).submit b).1 := by
  rw [step, h]
  cases hopen : t.crew.pool.accepting <;>
    simp [flush, submit, Pool.submit, Pool.Crew.step, hopen]

end Steps

/-! ## The accounts -/

/-- A batch that was formed is still to be submitted, accepted or refused; the counts are those of the
submissions, of the sends that came back and of the refusals. -/
structure Balanced [Fintype δ] (t : Traffic δ κ n) : Prop where
  formed : (t.formed : Multiset Batch) =
    ∑ d, (t.pending d : Multiset Batch) + (t.crew.accepted + t.refused)
  flushed : t.bucketsFlushed =
    (((t.crew.accepted : Multiset Batch) + t.refused).map fun b => b.buckets.length).sum
  finished : t.crew.pool.finished.Perm (t.delivered ++ t.failed)
  sent : t.batchesSent = t.delivered.length
  failed : t.batchesFailed = t.failed.length + t.refused.length

/-- A batch less to submit. -/
theorem sum_pending_tail [Fintype δ] [DecidableEq δ] {pending : δ → List Batch} {d : δ} {b : Batch}
    {rest : List Batch} (h : pending d = b :: rest) :
    ∑ i, (pending i : Multiset Batch) =
      b ::ₘ ∑ i, (Function.update pending d rest i : Multiset Batch) := by
  have hsum := Pool.Crew.sum_update (fun l : List Batch => (l : Multiset Batch)) pending d rest
  rw [h, ← Multiset.cons_coe, Multiset.cons_add] at hsum
  refine add_left_cancel (a := (rest : Multiset Batch)) ?_
  rw [← hsum, Multiset.add_cons]

namespace Balanced

variable [Fintype δ] {t : Traffic δ κ n}

theorem start (partitions : Option UInt64) (workers : Nat) :
    Balanced (start partitions workers : Traffic δ κ _) := by
  refine ⟨?_, rfl, .nil, rfl, rfl⟩
  have hnone : ∑ _d : δ, (([] : List Batch) : Multiset Batch) = 0 := Finset.sum_eq_zero fun _ _ => rfl
  exact (congrArg (· + (0 + 0)) hnone).symm

/-- What neither accepts nor ends anything leaves the accounts alone. -/
theorem setCrew (h : Balanced t) {crew : Pool.Crew Batch κ n} (haccepted : crew.accepted = t.crew.accepted)
    (hfinished : crew.pool.finished = t.crew.pool.finished) : Balanced { t with crew } := by
  refine ⟨?_, ?_, ?_, h.sent, h.failed⟩
  · rw [haccepted]
    exact h.formed
  · rw [haccepted]
    exact h.flushed
  · rw [hfinished]
    exact h.finished

/-- A send that comes back is delivered or has failed. -/
theorem answer (h : Balanced t) {b : Batch} {crew : Pool.Crew Batch κ n} {failed : Bool}
    (haccepted : crew.accepted = t.crew.accepted)
    (hfinished : crew.pool.finished = t.crew.pool.finished ++ [b]) :
    Balanced { t with
      crew
      batchesSent := if failed then t.batchesSent else t.batchesSent + 1
      batchesFailed := if failed then t.batchesFailed + 1 else t.batchesFailed
      delivered := if failed then t.delivered else t.delivered ++ [b]
      failed := if failed then t.failed ++ [b] else t.failed } := by
  refine ⟨?_, ?_, ?_, ?_, ?_⟩
  · rw [haccepted]
    exact h.formed
  · rw [haccepted]
    exact h.flushed
  · rw [hfinished]
    refine (h.finished.append_right [b]).trans ?_
    cases failed with
    | true => simp
    | false =>
      rw [List.append_assoc]
      change (t.delivered ++ (t.failed ++ [b])).Perm (t.delivered ++ [b] ++ t.failed)
      rw [List.append_assoc]
      exact List.perm_append_comm.append_left _
  · cases failed <;> simp [h.sent]
  · cases failed <;> simp [h.failed, Nat.add_right_comm]

variable [DecidableEq δ]

/-- A dispatch that begins has all its batches to submit. -/
theorem dispatch (h : Balanced t) {d : δ} (hd : t.pending d = []) (batches : List Batch) :
    Balanced { t with
      pending := Function.update t.pending d batches
      formed := t.formed ++ batches } := by
  refine ⟨?_, h.flushed, h.finished, h.sent, h.failed⟩
  have hsum := Pool.Crew.sum_update (fun l : List Batch => (l : Multiset Batch)) t.pending d batches
  dsimp only at hsum ⊢
  rw [hd, Multiset.coe_nil, zero_add] at hsum
  rw [hsum, ← Multiset.coe_add, h.formed]
  ac_rfl

/-- A batch that is submitted is accepted or refused. -/
theorem submit (h : Balanced t) {d : δ} {b : Batch} {rest : List Batch} (hd : t.pending d = b :: rest)
    {crew : Pool.Crew Batch κ n} {accepted : Bool} (hfinished : crew.pool.finished = t.crew.pool.finished)
    (haccepted : crew.accepted = if accepted then t.crew.accepted ++ [b] else t.crew.accepted) :
    Balanced { t with
      crew
      pending := Function.update t.pending d rest
      bucketsFlushed := t.bucketsFlushed + b.buckets.length
      batchesFailed := if accepted then t.batchesFailed else t.batchesFailed + 1
      refused := if accepted then t.refused else t.refused ++ [b] } := by
  have hformed := h.formed
  rw [sum_pending_tail hd, Multiset.cons_add] at hformed
  have hflushed := h.flushed
  have hboth : ((crew.accepted : Multiset Batch) + ↑(if accepted then t.refused else t.refused ++ [b])) =
      b ::ₘ ((t.crew.accepted : Multiset Batch) + t.refused) := by
    rw [haccepted]
    cases accepted
    · simp only [Bool.false_eq_true, ↓reduceIte, ← Multiset.coe_add, Multiset.coe_singleton,
        ← Multiset.singleton_add]
      ac_rfl
    · simp only [↓reduceIte, ← Multiset.coe_add, Multiset.coe_singleton, ← Multiset.singleton_add]
      ac_rfl
  refine ⟨?_, ?_, ?_, h.sent, ?_⟩
  · dsimp only
    rw [hboth, Multiset.add_cons]
    exact hformed
  · dsimp only
    rw [hboth, Multiset.map_cons, Multiset.sum_cons, ← hflushed, add_comm]
  · rw [hfinished]
    exact h.finished
  · cases accepted
    · simp [h.failed, Nat.add_assoc]
    · exact h.failed

end Balanced

/-- The accounts and what the pool says beside them. -/
structure Sound [Fintype δ] (bounded : κ → Bool) (t : Traffic δ κ n) : Prop where
  tallied : t.crew.Tallied
  ruled : t.crew.Ruled bounded
  balanced : t.Balanced

namespace Sound

variable [Fintype δ] {bounded : κ → Bool} {t : Traffic δ κ n}

theorem start (partitions : Option UInt64) (workers : Nat) :
    Sound bounded (start partitions workers : Traffic δ κ _) :=
  ⟨.start workers, .start workers, .start partitions workers⟩

variable [DecidableEq κ]

/-- A critical section of the pool that neither accepts nor ends anything. -/
theorem setCrew (h : Sound bounded t) {action : Pool.Action Batch κ n} (hsubmit : ∀ b, action ≠ .submit b)
    (hfinish : ∀ w failed, action ≠ .finish w failed) :
    Sound bounded { t with crew := t.crew.step bounded action } := by
  have hnext := Pool.Crew.next_step bounded t.crew action
  exact ⟨h.tallied.next h.ruled hnext, h.ruled.next hnext, h.balanced.setCrew
    (Pool.Crew.accepted_step bounded t.crew hsubmit) (Pool.Crew.finished_step bounded t.crew hfinish)⟩

variable [DecidableEq δ]

/-- **One step keeps the accounts.** -/
theorem step (h : Sound bounded t) (move : Move δ κ n) : Sound bounded (t.step bounded move) := by
  cases move with
  | dispatch d buckets =>
    rw [Traffic.step]
    split
    · next hd => exact ⟨h.tallied, h.ruled, h.balanced.dispatch hd _⟩
    · exact h
  | submit d =>
    rw [Traffic.step]
    split
    · exact h
    · next b rest hd =>
      have hnext := Pool.Crew.next_step bounded t.crew (.submit b)
      refine ⟨h.tallied.next h.ruled hnext, h.ruled.next hnext, h.balanced.submit hd ?_ ?_⟩
      · exact Pool.Crew.finished_step bounded t.crew (by simp)
      · cases hopen : t.crew.pool.accepting <;> simp [Pool.Crew.step, Pool.submit, hopen]
  | answer w failed =>
    rw [Traffic.step]
    split
    · next b hw =>
      have hnext := Pool.Crew.next_step bounded t.crew (.finish w failed)
      refine ⟨h.tallied.next h.ruled hnext, h.ruled.next hnext, h.balanced.answer ?_ ?_⟩
      · exact Pool.Crew.accepted_step bounded t.crew (by simp)
      · rw [Pool.Crew.step, hw]
        exact congrArg Pool.finished (h.tallied.finish_eq hw)
    · exact h
  | look w | begin k | endWait k | giveUp k | join k =>
    exact h.setCrew (by simp) (by simp)

theorem run (h : Sound bounded t) (moves : List (Move δ κ n)) : Sound bounded (t.run bounded moves) := by
  induction moves generalizing t with
  | nil => exact h
  | cons move rest ih => exact ih (h.step move)

end Sound

/-! ## Sends that fail -/

section Failing

variable [DecidableEq δ] [DecidableEq κ] (bounded : κ → Bool)

/-- The same move, but a send that comes back does so without an error. -/
def unfailing : Move δ κ n → Move δ κ n
  | .answer w _ => .answer w false
  | move => move

/-- All but what the sends that came back have answered. -/
def withoutAnswers (t : Traffic δ κ n) : Traffic δ κ n :=
  { t with batchesSent := 0, batchesFailed := 0, delivered := [], failed := [] }

/-- What a move does otherwise does not depend on the answers. -/
theorem withoutAnswers_step (t : Traffic δ κ n) (move : Move δ κ n) :
    (t.step bounded move).withoutAnswers =
      (t.withoutAnswers.step bounded (unfailing move)).withoutAnswers := by
  cases move with
  | dispatch d buckets =>
    change _ = (t.withoutAnswers.step bounded (.dispatch d buckets)).withoutAnswers
    simp only [step, withoutAnswers]
    cases t.pending d <;> rfl
  | submit d =>
    change _ = (t.withoutAnswers.step bounded (.submit d)).withoutAnswers
    simp only [step, withoutAnswers]
    cases t.pending d <;> rfl
  | answer w failed =>
    change _ = (t.withoutAnswers.step bounded (.answer w false)).withoutAnswers
    simp only [step, withoutAnswers]
    cases t.crew.workers w <;> rfl
  | look w | begin k | endWait k | giveUp k | join k => rfl

/-- **A send that fails is like one that does not**, for all other sends. -/
theorem withoutAnswers_run {t t' : Traffic δ κ n} (h : t.withoutAnswers = t'.withoutAnswers)
    {moves moves' : List (Move δ κ n)} (hmoves : moves.map unfailing = moves'.map unfailing) :
    (t.run bounded moves).withoutAnswers = (t'.run bounded moves').withoutAnswers := by
  induction moves generalizing t t' moves' with
  | nil =>
    rw [List.map_nil, eq_comm, List.map_eq_nil_iff] at hmoves
    rw [hmoves]
    exact h
  | cons move rest ih =>
    obtain ⟨move', rest', rfl, hmove, hrest⟩ := List.map_eq_cons_iff.mp hmoves.symm
    change ((t.step bounded move).run bounded rest).withoutAnswers =
      ((t'.step bounded move').run bounded rest').withoutAnswers
    refine ih ?_ hrest.symm
    rw [withoutAnswers_step, h, ← hmove, ← withoutAnswers_step]

end Failing

/-! ## Every reachable state -/

/-- No dispatch is under way, nothing is queued, and no send runs. -/
structure Quiet (t : Traffic δ κ n) : Prop where
  pending : ∀ d, t.pending d = []
  queued : t.crew.pool.queued = []
  active : t.crew.active = 0

/-- What holds whatever has happened so far. -/
structure Accounted [Fintype δ] (bounded : κ → Bool) (t : Traffic δ κ n) : Prop where
  /-- A batch that was formed is in one of seven places. -/
  places : (t.formed : Multiset Batch) = ∑ d, (t.pending d : Multiset Batch) +
    ↑(t.crew.pool.queued ++ t.crew.pool.running ++ t.delivered ++ t.failed ++ t.refused ++
      t.crew.pool.discarded)
  sent : t.batchesSent = t.delivered.length
  failed : t.batchesFailed = t.failed.length + t.refused.length
  /-- The sink gets the accepted batches in their order, and what it did not get is behind them. -/
  inOrder : t.crew.accepted = t.crew.started ++ t.crew.pool.discarded ++ t.crew.pool.queued
  started : t.crew.started.Perm (t.crew.pool.running ++ t.delivered ++ t.failed)
  /-- The sink gets each batch that was formed once at most. -/
  once : (t.crew.started : Multiset Batch) ≤ t.formed
  /-- In the end a batch was delivered, or it failed, was refused or was given up. -/
  ended : t.Quiet → t.formed.Perm (t.delivered ++ t.failed ++ t.refused ++ t.crew.pool.discarded)
  flushed : (∀ d, t.pending d = []) →
    t.bucketsFlushed = (t.formed.map fun b => b.buckets.length).sum
  /-- The batches that were given up are the only ones that are not counted. -/
  counted : t.Quiet →
    t.batchesSent + t.batchesFailed + t.crew.pool.discarded.length = t.formed.length
  balances : t.Quiet → (t.batchesSent + t.batchesFailed = t.formed.length ↔ t.crew.pool.discarded = [])
  /-- Only a bounded call whose time ran out gives batches up. -/
  givenUp : t.crew.pool.discarded ≠ [] → ∃ k, bounded k = true ∧ t.crew.calls k = .returned false

section Reachable

variable [Fintype δ] {bounded : κ → Bool} {t : Traffic δ κ n}

theorem Sound.places (h : Sound bounded t) : (t.formed : Multiset Batch) =
    ∑ d, (t.pending d : Multiset Batch) +
      ↑(t.crew.pool.queued ++ t.crew.pool.running ++ t.delivered ++ t.failed ++ t.refused ++
        t.crew.pool.discarded) := by
  have hsplit := Multiset.coe_eq_coe.mpr h.tallied.split
  have hfinished := Multiset.coe_eq_coe.mpr h.balanced.finished
  simp only [← Multiset.coe_add] at hsplit hfinished ⊢
  rw [h.balanced.formed, hsplit, hfinished]
  ac_rfl

theorem Sound.started (h : Sound bounded t) :
    t.crew.started.Perm (t.crew.pool.running ++ t.delivered ++ t.failed) := by
  rw [List.append_assoc]
  exact h.tallied.started.trans (h.balanced.finished.append_left _)

theorem Sound.once (h : Sound bounded t) : (t.crew.started : Multiset Batch) ≤ t.formed := by
  have hstarted : (t.crew.started : Multiset Batch) ≤ t.crew.accepted := by
    rw [h.tallied.accepted, List.append_assoc, ← Multiset.coe_add]
    exact Multiset.le_add_right _ _
  refine hstarted.trans ?_
  rw [h.balanced.formed]
  exact (Multiset.le_add_right _ _).trans (Multiset.le_add_left _ _)

theorem sum_pending (hpending : ∀ d, t.pending d = []) : ∑ d, (t.pending d : Multiset Batch) = 0 :=
  Finset.sum_eq_zero fun d _ => by rw [hpending d, Multiset.coe_nil]

/-- Between dispatches, each batch that was formed is with the pool or counted. -/
theorem Sound.settled (h : Sound bounded t) (hpending : ∀ d, t.pending d = []) :
    t.formed.Perm (t.crew.pool.queued ++ t.crew.pool.running ++ t.delivered ++ t.failed ++ t.refused ++
      t.crew.pool.discarded) := by
  have hplaces := h.places
  rw [sum_pending hpending, zero_add] at hplaces
  exact Multiset.coe_eq_coe.mp hplaces

theorem Sound.counted (h : Sound bounded t) (hpending : ∀ d, t.pending d = []) :
    t.batchesSent + t.batchesFailed + t.crew.pool.discarded.length +
      (t.crew.pool.queued.length + t.crew.active) = t.formed.length := by
  rw [(h.settled hpending).length_eq, h.balanced.sent, h.balanced.failed, h.tallied.active]
  simp only [List.length_append]
  omega

theorem Sound.flushed (h : Sound bounded t) (hpending : ∀ d, t.pending d = []) :
    t.bucketsFlushed = (t.formed.map fun b => b.buckets.length).sum := by
  have hformed := h.balanced.formed
  rw [sum_pending hpending, zero_add] at hformed
  rw [h.balanced.flushed, ← hformed, Multiset.map_coe, Multiset.sum_coe]

theorem Sound.ended (h : Sound bounded t) (hquiet : t.Quiet) :
    t.formed.Perm (t.delivered ++ t.failed ++ t.refused ++ t.crew.pool.discarded) := by
  have hrunning : t.crew.pool.running = [] :=
    List.length_eq_zero_iff.mp (h.tallied.active.symm.trans hquiet.active)
  have hsettled := h.settled hquiet.pending
  rwa [hquiet.queued, hrunning] at hsettled

theorem Sound.counted_of_quiet (h : Sound bounded t) (hquiet : t.Quiet) :
    t.batchesSent + t.batchesFailed + t.crew.pool.discarded.length = t.formed.length := by
  have hcounted := h.counted hquiet.pending
  rwa [hquiet.queued, hquiet.active] at hcounted

theorem Sound.accounted (h : Sound bounded t) : Accounted bounded t where
  places := h.places
  sent := h.balanced.sent
  failed := h.balanced.failed
  inOrder := h.tallied.accepted
  started := h.started
  once := h.once
  ended := h.ended
  flushed := h.flushed
  counted := h.counted_of_quiet
  balances hquiet := by
    rw [← h.counted_of_quiet hquiet, left_eq_add, List.length_eq_zero_iff]
  givenUp hd := by
    obtain ⟨-, k, hk⟩ := h.ruled.discarded hd
    exact ⟨k, h.ruled.bounded k (Or.inr (Or.inr hk)), hk⟩

end Reachable

end Traffic

end Telemetry.Flush

import Mathlib.Algebra.Order.BigOperators.Group.Finset
import Mathlib.Algebra.Order.Group.Multiset
import Mathlib.Data.Fintype.BigOperators
import Telemetry.Pool

/-!
# A pool while its workers run

Tasks are submitted, workers take and finish them, and calls to shut the pool down wait, join the
workers or run out of time; the critical sections of all of them come in any order.  Two invariants
carry the result.  `Ruled`: what is closed stays closed, workers go only when nothing is left to take,
and nothing is given up before a call ran out of time.  `Tallied`: the accepted tasks are those that
started, then those that were given up, then those that are queued, and the running ones are those of
the busy workers.
-/

namespace Telemetry.Pool

variable {τ κ : Type}

theorem take_frame (p : Pool τ) :
    p.take.accepting = p.accepting ∧ p.take.discarded = p.discarded := by
  unfold take
  split
  · exact ⟨rfl, rfl⟩
  · split <;> exact ⟨rfl, rfl⟩

theorem take_finished (p : Pool τ) : p.take.finished = p.finished := by
  unfold take
  split
  · rfl
  · split <;> rfl

theorem finish_frame (p : Pool τ) (i : Nat) : (p.finish i).accepting = p.accepting ∧
    (p.finish i).queued = p.queued ∧ (p.finish i).discarded = p.discarded := by
  unfold finish
  split <;> exact ⟨rfl, rfl, rfl⟩

/-! ## Threads -/

/-- Where a worker stands. -/
inductive Worker (τ : Type) where
  | waiting
  | busy (t : τ)
  | gone
  deriving DecidableEq

def Worker.tasks : Worker τ → Multiset τ
  | .busy t => {t}
  | .waiting | .gone => 0

/-- Where a call to shut the pool down stands. -/
inductive Call where
  | unbegun
  /-- It closed the pool and waits for it to be idle, for a while. -/
  | waiting
  /-- It waits until every worker is gone. -/
  | joining
  /-- Its time ran out. -/
  | expired
  | returned (inTime : Bool)
  deriving DecidableEq

def Call.TimedOut (s : Call) : Prop := s = .expired ∨ s = .returned false

/-- A pool with its workers, the calls to shut it down, and what has happened so far. -/
structure Crew (τ κ : Type) (n : Nat) where
  pool : Pool τ
  /-- How many tasks run, as the workers count them. -/
  active : Nat := 0
  workers : Fin n → Worker τ
  /-- Nobody has joined or detached the workers. -/
  attached : Bool := true
  calls : κ → Call
  /-- The tasks that were accepted, in that order. -/
  accepted : List τ := []
  /-- The tasks that were started, in that order. -/
  started : List τ := []

/-- Whose critical section it is. -/
inductive Action (τ κ : Type) (n : Nat) where
  | submit (t : τ)
  /-- A worker takes the oldest task, or goes if there is none and the pool is closed. -/
  | look (w : Fin n)
  /-- The task of a worker ends, with an error or without. -/
  | finish (w : Fin n) (failed : Bool)
  | begin (k : κ)
  /-- The wait of a bounded call ends: the pool is idle, or the time is over. -/
  | endWait (k : κ)
  | giveUp (k : κ)
  | join (k : κ)

namespace Crew

variable {n : Nat}

/-- No task was submitted, and no call has begun. -/
def start (workers : Nat) : Crew τ κ (create workers : Pool τ).workers :=
  { pool := create workers, workers := fun _ => .waiting, calls := fun _ => .unbegun }

def Deserted (c : Crew τ κ n) : Prop := ∀ w, c.workers w = .gone

section Steps

variable [DecidableEq κ] [DecidableEq τ] (bounded : κ → Bool)

instance (c : Crew τ κ n) : Decidable c.Deserted :=
  Nat.decidableForallFin fun w => c.workers w = .gone

/-- One critical section; one that its thread cannot enter does nothing. -/
def step (c : Crew τ κ n) : Action τ κ n → Crew τ κ n
  | .submit t =>
    let (accepted, pool) := c.pool.submit t
    { c with pool, accepted := if accepted then c.accepted ++ [t] else c.accepted }
  | .look w => match c.workers w, c.pool.queued with
    | .waiting, t :: _ =>
      { c with
        pool := c.pool.take
        active := c.active + 1
        workers := Function.update c.workers w (.busy t)
        started := c.started ++ [t] }
    | .waiting, [] =>
      if c.pool.accepting then c else { c with workers := Function.update c.workers w .gone }
    | _, _ => c
  | .finish w _ => match c.workers w with
    | .busy t =>
      { c with
        pool := c.pool.finish (c.pool.running.idxOf t)
        active := c.active - 1
        workers := Function.update c.workers w .waiting }
    | _ => c
  | .begin k => match c.calls k with
    | .unbegun =>
      { c with
        pool := c.pool.close
        calls := Function.update c.calls k (if bounded k then .waiting else .joining) }
    | _ => c
  | .endWait k => match c.calls k with
    | .waiting =>
      { c with
        calls := Function.update c.calls k
          (if c.pool.queued.isEmpty && c.active == 0 then .joining else .expired) }
    | _ => c
  | .giveUp k => match c.calls k with
    | .expired =>
      { c with
        pool := c.pool.abandon
        attached := false
        calls := Function.update c.calls k (.returned false) }
    | _ => c
  | .join k => match c.calls k with
    | .joining =>
      if c.attached ∧ ¬ c.Deserted then c
      else { c with attached := false, calls := Function.update c.calls k (.returned true) }
    | _ => c

def run (c : Crew τ κ n) (actions : List (Action τ κ n)) : Crew τ κ n :=
  actions.foldl (step bounded) c

/-- Everything that one critical section can do. -/
inductive Next (c : Crew τ κ n) : Crew τ κ n → Prop
  | idle : Next c c
  | accept (t : τ) (hopen : c.pool.accepting = true) :
      Next c { c with
        pool := { c.pool with queued := c.pool.queued ++ [t] }
        accepted := c.accepted ++ [t] }
  | take (w : Fin n) (t : τ) (rest : List τ) (hw : c.workers w = .waiting)
      (hq : c.pool.queued = t :: rest) :
      Next c { c with
        pool := c.pool.take
        active := c.active + 1
        workers := Function.update c.workers w (.busy t)
        started := c.started ++ [t] }
  | go (w : Fin n) (hw : c.workers w = .waiting) (hq : c.pool.queued = [])
      (hclosed : c.pool.accepting = false) :
      Next c { c with workers := Function.update c.workers w .gone }
  | finish (w : Fin n) (t : τ) (hw : c.workers w = .busy t) :
      Next c { c with
        pool := c.pool.finish (c.pool.running.idxOf t)
        active := c.active - 1
        workers := Function.update c.workers w .waiting }
  | begin (k : κ) (s : Call) (hk : c.calls k = .unbegun)
      (hs : s = .joining ∨ (s = .waiting ∧ bounded k = true)) :
      Next c { c with pool := c.pool.close, calls := Function.update c.calls k s }
  | endWait (k : κ) (s : Call) (hk : c.calls k = .waiting) (hs : s = .joining ∨ s = .expired) :
      Next c { c with calls := Function.update c.calls k s }
  | giveUp (k : κ) (hk : c.calls k = .expired) :
      Next c { c with
        pool := c.pool.abandon
        attached := false
        calls := Function.update c.calls k (.returned false) }
  | join (k : κ) (hk : c.calls k = .joining) (hleft : c.attached = false ∨ c.Deserted) :
      Next c { c with attached := false, calls := Function.update c.calls k (.returned true) }

theorem next_step (c : Crew τ κ n) (action : Action τ κ n) : Next bounded c (c.step bounded action) := by
  cases action with
  | submit t =>
    by_cases hopen : c.pool.accepting = true
    · rw [step, submit, if_pos hopen]
      exact .accept t hopen
    · rw [step, submit, if_neg hopen]
      exact .idle
  | look w =>
    rw [step]
    split
    · next t rest hw hq => exact .take w t rest hw hq
    · next hw hq =>
      split
      · exact .idle
      · next hclosed => exact .go w hw hq (by simpa using hclosed)
    · exact .idle
  | finish w failed =>
    rw [step]
    split
    · next t hw => exact .finish w t hw
    · exact .idle
  | begin k =>
    rw [step]
    split
    · next hk =>
      refine .begin k _ hk ?_
      split
      · next hbounded => exact Or.inr ⟨rfl, hbounded⟩
      · exact Or.inl rfl
    · exact .idle
  | endWait k =>
    rw [step]
    split
    · next hk =>
      refine .endWait k _ hk ?_
      split
      · exact Or.inl rfl
      · exact Or.inr rfl
    · exact .idle
  | giveUp k =>
    rw [step]
    split
    · next hk => exact .giveUp k hk
    · exact .idle
  | join k =>
    rw [step]
    split
    · next hk =>
      split
      · exact .idle
      · next hleft => exact .join k hk (by grind)
    · exact .idle

/-- Nothing but a submission is accepted. -/
theorem accepted_step (c : Crew τ κ n) {action : Action τ κ n} (h : ∀ t, action ≠ .submit t) :
    (c.step bounded action).accepted = c.accepted := by
  cases action with
  | submit t => exact absurd rfl (h t)
  | look w =>
    rw [step]
    split
    · rfl
    · split <;> rfl
    · rfl
  | finish w failed | begin k | endWait k | giveUp k =>
    rw [step]
    split <;> rfl
  | join k =>
    rw [step]
    split
    · split <;> rfl
    · rfl

/-- No task finishes but by its own worker. -/
theorem finished_step (c : Crew τ κ n) {action : Action τ κ n} (h : ∀ w failed, action ≠ .finish w failed) :
    (c.step bounded action).pool.finished = c.pool.finished := by
  cases action with
  | submit t => cases hopen : c.pool.accepting <;> simp [step, submit, hopen]
  | look w =>
    rw [step]
    split
    · exact take_finished c.pool
    · split <;> rfl
    · rfl
  | finish w failed => exact absurd rfl (h w failed)
  | begin k | endWait k | giveUp k =>
    rw [step]
    split <;> rfl
  | join k =>
    rw [step]
    split
    · split <;> rfl
    · rfl

end Steps

/-! ## Calls -/

/-- What a call that began, a worker that went and a task that was given up say about the pool. -/
structure Ruled (bounded : κ → Bool) (c : Crew τ κ n) : Prop where
  closed : ∀ k, c.calls k ≠ .unbegun → c.pool.accepting = false
  bounded : ∀ k, c.calls k = .waiting ∨ (c.calls k).TimedOut → bounded k = true
  gone : ∀ w, c.workers w = .gone → c.pool.queued = [] ∧ c.pool.accepting = false
  discarded : c.pool.discarded ≠ [] → c.pool.queued = [] ∧ ∃ k, c.calls k = .returned false
  /-- The workers were left alone by calls that ran out of time, or they are gone. -/
  detached : c.attached = false → c.Deserted ∨ ∃ k, c.calls k = .returned false
  returned : ∀ k, c.calls k = .returned true → c.attached = false

section Calls

variable {c c' : Crew τ κ n} {bounded : κ → Bool}

theorem Ruled.start (workers : Nat) : Ruled bounded (start workers : Crew τ κ _) := by
  refine ⟨?_, ?_, ?_, ?_, ?_, ?_⟩ <;> simp [Crew.start, create, Call.TimedOut]

/-- A worker that takes or finishes a task leaves a closed pool closed and what was given up alone. -/
theorem Ruled.work (h : Ruled bounded c) {pool : Pool τ} {active : Nat} {started : List τ} {w : Fin n}
    {s : Worker τ} (hw : c.workers w ≠ .gone) (hs : s ≠ .gone)
    (haccepting : pool.accepting = c.pool.accepting)
    (hdiscarded : pool.discarded = c.pool.discarded)
    (hqueued : c.pool.queued = [] → pool.queued = []) :
    Ruled bounded { c with pool, active, workers := Function.update c.workers w s, started } := by
  refine ⟨fun k hk => haccepting.trans (h.closed k hk), h.bounded, fun i hi => ?_, fun hd => ?_,
    fun hattached => ?_, h.returned⟩
  · have hgone : c.workers i = .gone := by grind [Function.update_apply]
    exact ⟨hqueued (h.gone i hgone).1, haccepting.trans (h.gone i hgone).2⟩
  · obtain ⟨hq, hk⟩ := h.discarded (hdiscarded ▸ hd)
    exact ⟨hqueued hq, hk⟩
  · rcases h.detached hattached with hdeserted | hk
    · exact absurd (hdeserted w) hw
    · exact Or.inr hk

variable [DecidableEq κ]

theorem Ruled.setCall (h : Ruled bounded c) {k : κ} {s : Call} (hk : c.calls k ≠ .returned false)
    (hclosed : c.pool.accepting = false)
    (hbounded : s = .waiting ∨ s.TimedOut → bounded k = true)
    (hs : s = .returned true → c.attached = false) :
    Ruled bounded { c with calls := Function.update c.calls k s } := by
  have hkeeps : (∃ k', c.calls k' = .returned false) →
      ∃ k', Function.update c.calls k s k' = .returned false := by
    rintro ⟨k', hk'⟩
    have hne : k' ≠ k := by
      rintro rfl
      exact hk hk'
    exact ⟨k', by rw [Function.update_of_ne hne, hk']⟩
  refine ⟨fun _ _ => hclosed, fun k' hk' => ?_, h.gone, fun hd => ?_, fun hattached => ?_,
    fun k' hk' => ?_⟩
  · dsimp only at hk'
    by_cases he : k' = k
    · subst he
      rw [Function.update_self] at hk'
      exact hbounded hk'
    · rw [Function.update_of_ne he] at hk'
      exact h.bounded k' hk'
  · exact ⟨(h.discarded hd).1, hkeeps (h.discarded hd).2⟩
  · exact (h.detached hattached).imp_right hkeeps
  · dsimp only at hk' ⊢
    by_cases he : k' = k
    · subst he
      rw [Function.update_self] at hk'
      exact hs hk'
    · rw [Function.update_of_ne he] at hk'
      exact h.returned k' hk'

variable [DecidableEq τ]

/-- **One critical section keeps the rules.** -/
theorem Ruled.next (h : Ruled bounded c) (hn : Next bounded c c') : Ruled bounded c' := by
  cases hn with
  | idle => exact h
  | accept t hopen =>
    have hnone : ¬ c.pool.accepting = false := by simp [hopen]
    refine ⟨h.closed, h.bounded, fun w hw => absurd (h.gone w hw).2 hnone, fun hd => ?_, h.detached,
      h.returned⟩
    obtain ⟨-, k, hk⟩ := h.discarded hd
    exact absurd (h.closed k (by simp [hk])) hnone
  | take w t rest hw hq =>
    exact h.work (by simp [hw]) (by simp) (take_frame _).1 (take_frame _).2 (by simp [hq])
  | go w hw hq hclosed =>
    refine ⟨h.closed, h.bounded, fun _ _ => ⟨hq, hclosed⟩, h.discarded, fun hattached => ?_, h.returned⟩
    rcases h.detached hattached with hdeserted | hk
    · exact absurd (hdeserted w) (by simp [hw])
    · exact Or.inr hk
  | finish w t hw =>
    obtain ⟨haccepting, hqueued, hdiscarded⟩ := finish_frame c.pool (c.pool.running.idxOf t)
    exact h.work (by simp [hw]) (by simp) haccepting hdiscarded fun hq => hqueued.trans hq
  | begin k s hk hs =>
    have hclose : Ruled bounded { c with pool := c.pool.close } :=
      ⟨fun _ _ => rfl, h.bounded, fun w hw => ⟨(h.gone w hw).1, rfl⟩, h.discarded, h.detached,
        h.returned⟩
    refine hclose.setCall (by simp [hk]) rfl ?_ ?_ <;>
      rcases hs with rfl | ⟨rfl, hbounded⟩ <;> simp_all [Call.TimedOut]
  | endWait k s hk hs =>
    refine h.setCall (by simp [hk]) (h.closed k (by simp [hk])) (fun _ => h.bounded k (Or.inl hk)) ?_
    rcases hs with rfl | rfl <;> simp
  | giveUp k hk =>
    have hclosed := h.closed k (by simp [hk])
    have hbounded := h.bounded k (Or.inr (Or.inl hk))
    have hcall := h.setCall (s := .returned false) (by simp [hk]) hclosed (fun _ => hbounded) (by simp)
    have hk' : Function.update c.calls k (.returned false) k = .returned false :=
      Function.update_self ..
    exact ⟨hcall.closed, hcall.bounded, fun w hw => ⟨rfl, hclosed⟩, fun _ => ⟨rfl, k, hk'⟩,
      fun _ => Or.inr ⟨k, hk'⟩, fun _ _ => rfl⟩
  | join k hk hleft =>
    have hdetach : Ruled bounded { c with attached := false } :=
      ⟨h.closed, h.bounded, h.gone, h.discarded, fun _ => hleft.elim h.detached Or.inl, fun _ _ => rfl⟩
    exact hdetach.setCall (by simp [hk]) (h.closed k (by simp [hk])) (by simp [Call.TimedOut])
      fun _ => rfl

theorem Ruled.run (h : Ruled bounded c) (actions : List (Action τ κ n)) :
    Ruled bounded (c.run bounded actions) := by
  induction actions generalizing c with
  | nil => exact h
  | cons action rest ih => exact ih (h.next (next_step bounded c action))

end Calls

/-! ## Tasks -/

/-- What was accepted was started, given up or is queued, in this order; what was started runs or has
finished; and the running tasks are those of the busy workers. -/
structure Tallied (c : Crew τ κ n) : Prop where
  workers : c.pool.workers = n
  accepted : c.accepted = c.started ++ c.pool.discarded ++ c.pool.queued
  started : c.started.Perm (c.pool.running ++ c.pool.finished)
  busy : ∑ w, (c.workers w).tasks = (c.pool.running : Multiset τ)
  active : c.active = c.pool.running.length

/-- A sum after one of its members has changed. -/
theorem sum_update {ι β M : Type} [Fintype ι] [DecidableEq ι] [AddCommMonoid M] (g : β → M)
    (f : ι → β) (i : ι) (b : β) :
    g (f i) + ∑ j, g (Function.update f i b j) = g b + ∑ j, g (f j) := by
  have hothers : ∑ j ∈ Finset.univ.erase i, g (Function.update f i b j) =
      ∑ j ∈ Finset.univ.erase i, g (f j) := by
    refine Finset.sum_congr rfl fun j hj => ?_
    rw [Function.update_of_ne (Finset.ne_of_mem_erase hj)]
  rw [← Finset.add_sum_erase _ _ (Finset.mem_univ i), hothers, Function.update_self,
    ← Finset.add_sum_erase _ (fun j => g (f j)) (Finset.mem_univ i)]
  exact add_left_comm ..

namespace Tallied

variable {c c' : Crew τ κ n}

theorem start (workers : Nat) : Tallied (start workers : Crew τ κ _) := by
  refine ⟨rfl, rfl, .nil, ?_, rfl⟩
  exact Finset.sum_eq_zero fun _ _ => rfl

theorem length_running (h : Tallied c) :
    c.pool.running.length = ∑ w, (c.workers w).tasks.card := by
  rw [← Multiset.coe_card, ← h.busy]
  exact map_sum Multiset.cardHom _ _

/-- A worker that waits is free for the pool too. -/
theorem hasFreeWorker (h : Tallied c) {w : Fin n} (hw : c.workers w = .waiting) :
    c.pool.hasFreeWorker = true := by
  have hle : ∀ i, (c.workers i).tasks.card ≤ 1 := by
    intro i
    cases c.workers i <;> simp [Worker.tasks]
  have hless : ∑ i, (c.workers i).tasks.card < ∑ _i : Fin n, 1 := by
    refine Finset.sum_lt_sum (fun i _ => hle i) ⟨w, Finset.mem_univ w, ?_⟩
    rw [hw]
    exact Nat.zero_lt_one
  rw [Pool.hasFreeWorker, decide_eq_true_eq, h.length_running, h.workers]
  simpa using hless

/-- A worker that the pool counts as free waits, if there is something to take. -/
theorem exists_waiting (h : Tallied c) {bounded : κ → Bool} (hr : Ruled bounded c)
    (hq : c.pool.queued ≠ []) (hfree : c.pool.hasFreeWorker = true) : ∃ w, c.workers w = .waiting := by
  by_contra hnone
  have hbusy : ∀ w, (c.workers w).tasks.card = 1 := by
    intro w
    cases hw : c.workers w with
    | waiting => exact absurd ⟨w, hw⟩ hnone
    | busy t => rfl
    | gone => exact absurd (hr.gone w hw).1 hq
  have hlength : c.pool.running.length = n := by
    rw [h.length_running, Finset.sum_congr rfl fun w _ => hbusy w]
    simp
  rw [Pool.hasFreeWorker, decide_eq_true_eq, hlength, h.workers] at hfree
  exact absurd hfree (Nat.lt_irrefl n)

theorem take_eq (h : Tallied c) {w : Fin n} (hw : c.workers w = .waiting) {t : τ} {rest : List τ}
    (hq : c.pool.queued = t :: rest) :
    c.pool.take = { c.pool with queued := rest, running := c.pool.running ++ [t] } := by
  rw [Pool.take, hq]
  exact if_pos (h.hasFreeWorker hw)

theorem mem_running (h : Tallied c) {w : Fin n} {t : τ} (hw : c.workers w = .busy t) :
    t ∈ c.pool.running := by
  have hle : (c.workers w).tasks ≤ ∑ i, (c.workers i).tasks :=
    Finset.single_le_sum (fun i _ => Multiset.zero_le _) (Finset.mem_univ w)
  rw [← Multiset.mem_coe, ← h.busy]
  refine Multiset.mem_of_le hle ?_
  rw [hw]
  exact Multiset.mem_singleton_self t

theorem finish_eq [DecidableEq τ] (h : Tallied c) {w : Fin n} {t : τ} (hw : c.workers w = .busy t) :
    c.pool.finish (c.pool.running.idxOf t) =
      { c.pool with running := c.pool.running.erase t, finished := c.pool.finished ++ [t] } := by
  rw [Pool.finish, List.getElem?_idxOf (h.mem_running hw), ← List.erase_eq_eraseIdx_of_idxOf rfl]

theorem running_eq_nil (h : Tallied c) (hgone : c.Deserted) : c.pool.running = [] := by
  rw [← Multiset.coe_eq_zero, ← h.busy]
  refine Finset.sum_eq_zero fun w _ => ?_
  rw [hgone w]
  rfl

theorem split (h : Tallied c) : c.accepted.Perm
    (c.pool.queued ++ c.pool.running ++ c.pool.finished ++ c.pool.discarded) := by
  rw [h.accepted, List.append_assoc c.pool.queued, List.append_assoc c.started]
  refine (h.started.append List.perm_append_comm).trans ?_
  rw [← List.append_assoc]
  exact List.perm_append_comm.append_right _

variable [DecidableEq κ] [DecidableEq τ] {bounded : κ → Bool}

/-- **One critical section keeps the tally.** -/
theorem next (h : Tallied c) (hr : Ruled bounded c) (hn : Next bounded c c') : Tallied c' := by
  -- nothing is queued behind a task that was given up
  have hnone : c.pool.queued ≠ [] ∨ c.pool.accepting = true → c.pool.discarded = [] := by
    intro hq
    by_contra hd
    obtain ⟨hnil, k, hk⟩ := hr.discarded hd
    rcases hq with hq | hq
    · exact hq hnil
    · simp [hr.closed k (by simp [hk])] at hq
  cases hn with
  | idle => exact h
  | accept t hopen =>
    refine ⟨h.workers, ?_, h.started, h.busy, h.active⟩
    change c.accepted ++ [t] = c.started ++ c.pool.discarded ++ (c.pool.queued ++ [t])
    rw [h.accepted, List.append_assoc]
  | take w t rest hw hq =>
    have hd := hnone (Or.inl (by simp [hq]))
    rw [h.take_eq hw hq]
    refine ⟨h.workers, ?_, ?_, ?_, ?_⟩
    · change c.accepted = c.started ++ [t] ++ c.pool.discarded ++ rest
      rw [h.accepted, hd, hq]
      simp
    · change (c.started ++ [t]).Perm (c.pool.running ++ [t] ++ c.pool.finished)
      refine (h.started.append_right [t]).trans ?_
      rw [List.append_assoc, List.append_assoc]
      exact List.perm_append_comm.append_left _
    · have hsum := sum_update Worker.tasks c.workers w (.busy t)
      rw [hw, h.busy] at hsum
      change ∑ i, (Function.update c.workers w (.busy t) i).tasks = ↑(c.pool.running ++ [t])
      rw [← Multiset.coe_add, add_comm]
      exact (zero_add _).symm.trans hsum
    · change c.active + 1 = (c.pool.running ++ [t]).length
      rw [h.active, List.length_append, List.length_singleton]
  | go w hw hq hclosed =>
    refine ⟨h.workers, h.accepted, h.started, ?_, h.active⟩
    have hsum := sum_update Worker.tasks c.workers w .gone
    rw [hw, h.busy] at hsum
    exact (zero_add _).symm.trans (hsum.trans (zero_add _))
  | finish w t hw =>
    have hmem := h.mem_running hw
    have hperm : c.pool.running.Perm (t :: c.pool.running.erase t) := List.perm_cons_erase hmem
    rw [h.finish_eq hw]
    refine ⟨h.workers, h.accepted, ?_, ?_, ?_⟩
    · change c.started.Perm (c.pool.running.erase t ++ (c.pool.finished ++ [t]))
      refine h.started.trans ((hperm.append_right _).trans ?_)
      rw [← List.append_assoc]
      exact (List.perm_append_singleton t _).symm
    · have hsum := sum_update Worker.tasks c.workers w .waiting
      rw [hw, h.busy, Multiset.coe_eq_coe.mpr hperm] at hsum
      change ∑ i, (Function.update c.workers w .waiting i).tasks = ↑(c.pool.running.erase t)
      exact add_left_cancel (hsum.trans (zero_add _))
    · change c.active - 1 = (c.pool.running.erase t).length
      rw [h.active, List.length_erase_of_mem hmem]
  | begin k s hk hs => exact ⟨h.workers, h.accepted, h.started, h.busy, h.active⟩
  | endWait k s hk hs => exact ⟨h.workers, h.accepted, h.started, h.busy, h.active⟩
  | giveUp k hk =>
    refine ⟨h.workers, ?_, h.started, h.busy, h.active⟩
    change c.accepted = c.started ++ (c.pool.discarded ++ c.pool.queued) ++ []
    rw [h.accepted, List.append_nil, List.append_assoc]
  | join k hk hleft => exact ⟨h.workers, h.accepted, h.started, h.busy, h.active⟩

theorem run (h : Tallied c) (hr : Ruled bounded c) (actions : List (Action τ κ n)) :
    Tallied (c.run bounded actions) := by
  induction actions generalizing c with
  | nil => exact h
  | cons action rest ih =>
    have hn := next_step bounded c action
    exact ih (h.next hr hn) (hr.next hn)

end Tallied

/-! ## Calls without interruption -/

section Uninterrupted

variable {c : Crew τ κ n}

/-- The pool is idle if it has no task, as the workers count them. -/
theorem Tallied.isIdle_eq (h : Tallied c) :
    c.pool.isIdle = (c.pool.queued.isEmpty && c.active == 0) := by
  rw [Pool.isIdle, h.active]
  cases c.pool.running <;> rfl

/-- A wait that ends and is given up at once ends as the pool's own. -/
theorem Tallied.run_endWait [DecidableEq κ] [DecidableEq τ] (h : Tallied c) {bounded : κ → Bool}
    {k : κ} (hk : c.calls k = .waiting) :
    (c.run bounded [.endWait k, .giveUp k]).pool = c.pool.endWait.2 := by
  change ((c.step bounded (.endWait k)).step bounded (.giveUp k)).pool = _
  rw [step, hk, endWait, h.isIdle_eq]
  cases c.pool.queued.isEmpty && c.active == 0 <;> simp [step]

end Uninterrupted

/-! ## Every reachable state -/

/-- When a call has joined the workers and none has run out of time, nothing is left. -/
theorem Ruled.settled {bounded : κ → Bool} {c : Crew τ κ n} (hr : Ruled bounded c) (h : Tallied c)
    (hworkers : 0 < n) {k : κ} (hk : c.calls k = .returned true) (hintime : ∀ k', ¬ (c.calls k').TimedOut) :
    c.accepted.Perm c.pool.finished := by
  have hnotOut : ¬ ∃ k', c.calls k' = .returned false := fun ⟨k', hk'⟩ => hintime k' (Or.inr hk')
  have hdeserted : c.Deserted := (hr.detached (hr.returned k hk)).resolve_right hnotOut
  have hqueued : c.pool.queued = [] := (hr.gone ⟨0, hworkers⟩ (hdeserted _)).1
  have hdiscarded : c.pool.discarded = [] := by
    by_contra hd
    exact hnotOut (hr.discarded hd).2
  have hrunning := h.running_eq_nil hdeserted
  simpa [hqueued, hdiscarded, hrunning] using h.split

/-- What holds whatever has happened so far. -/
structure Orderly [DecidableEq τ] (bounded : κ → Bool) (c : Crew τ κ n) : Prop where
  /-- An accepted task is in one of four places. -/
  split : c.accepted.Perm
    (c.pool.queued ++ c.pool.running ++ c.pool.finished ++ c.pool.discarded)
  /-- Tasks start in the order in which they were accepted, and only tasks behind them are given up. -/
  inOrder : c.accepted = c.started ++ c.pool.discarded ++ c.pool.queued
  once : ∀ t, c.started.count t ≤ c.accepted.count t
  started : c.started.Perm (c.pool.running ++ c.pool.finished)
  /-- The running tasks are those that some worker has. -/
  busy : ∑ w, (c.workers w).tasks = (c.pool.running : Multiset τ)
  active : c.active = c.pool.running.length
  /-- Once a call has begun, a submission is refused and changes nothing. -/
  refuses : ∀ k, c.calls k ≠ .unbegun → ∀ t, c.pool.submit t = (false, c.pool)
  /-- A task is given up by a bounded call that returned that it was not in time. -/
  discarded : c.pool.discarded ≠ [] → ∃ k, bounded k = true ∧ c.calls k = .returned false
  /-- Only a bounded call is ever out of time. -/
  timedOut : ∀ k, (c.calls k).TimedOut → bounded k = true
  /-- When a call returns in time and none has run out of time, every accepted task has finished. -/
  settled : ∀ k, c.calls k = .returned true → (∀ k', ¬ (c.calls k').TimedOut) →
    c.accepted.Perm c.pool.finished
  /-- A worker is gone only if nothing is left to take and nothing will come. -/
  gone : ∀ w, c.workers w = .gone → c.pool.queued = [] ∧ c.pool.accepting = false

section Orderly

variable [DecidableEq τ] {bounded : κ → Bool} {c : Crew τ κ n}

theorem Tallied.orderly (h : Tallied c) (hr : Ruled bounded c) (hworkers : 0 < n) :
    Orderly bounded c where
  split := h.split
  inOrder := h.accepted
  once t := by
    rw [h.accepted, List.append_assoc, List.count_append]
    exact Nat.le_add_right _ _
  started := h.started
  busy := h.busy
  active := h.active
  refuses k hk t := by
    rw [submit, if_neg (by simp [hr.closed k hk])]
  discarded hd := by
    obtain ⟨-, k, hk⟩ := hr.discarded hd
    exact ⟨k, hr.bounded k (Or.inr (Or.inr hk)), hk⟩
  timedOut k hk := hr.bounded k (Or.inr hk)
  settled k hk hintime := hr.settled h hworkers hk hintime
  gone := hr.gone

/-- **A pool runs every accepted task once**, in the order of acceptance, unless a bounded call gives it
up; whatever the number of workers, the calls to shut it down, and the order of the critical sections. -/
theorem run_orderly [DecidableEq κ] (bounded : κ → Bool) (workers : Nat)
    (actions : List (Action τ κ (create workers : Pool τ).workers)) :
    Orderly bounded ((start workers).run bounded actions) := by
  have hruled : Ruled bounded (start workers : Crew τ κ _) := .start workers
  have htallied : Tallied (start workers : Crew τ κ _) := .start workers
  exact (htallied.run hruled actions).orderly (hruled.run actions)
    (Nat.lt_of_lt_of_le Nat.zero_lt_one (Nat.le_max_right workers 1))

/-- A bounded call gives up the task behind the one that the only worker has. -/
example : ((start 1 : Crew Nat Unit _).run (fun _ => true) [.submit 5, .submit 7, .look ⟨0, by decide⟩,
    .begin (), .submit 9, .endWait (), .giveUp ()]).pool =
      { workers := 1, accepting := false, running := [5], discarded := [7] } := by
  decide

end Orderly

end Crew

end Telemetry.Pool

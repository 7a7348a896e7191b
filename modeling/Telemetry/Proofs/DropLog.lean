import Mathlib.Algebra.GroupWithZero.Nat
import Mathlib.Data.List.DropRight
import Mathlib.Data.UInt
import Telemetry.DropLog

/-!
# What a log of drops remembers

A log that has recorded drops and was cleared now and then holds the latest drops since it was last cleared,
and counts every drop that it ever recorded (`run_reflects`).  The drops may also be held in a queue that the
oldest one leaves as soon as it is full (`Queue.log_run`).
-/

namespace Telemetry

/-! ## Counts by reason -/

namespace Drop.Reason

theorem count_all (r : Reason) : all.count r = 1 := by cases r <;> decide

end Drop.Reason

namespace DropCounts

theorem get_zero (r : Drop.Reason) : ({} : DropCounts).get r = 0 := by cases r <;> rfl

/-- What is added for one reason is added to the sum over all of them. -/
theorem sum_get_add (c : DropCounts) (reason : Drop.Reason) (n : UInt64) :
    (Drop.Reason.all.map (c.add reason n).get).sum = (Drop.Reason.all.map c.get).sum + n := by
  cases reason <;>
    simp only [Drop.Reason.all, add, get, List.map_cons, List.map_nil, List.sum_cons, List.sum_nil] <;>
    ac_rfl

end DropCounts

namespace DropLog

variable {d : Drop} {ds : List Drop}

/-! ## Runs -/

/-- What may happen to a log. -/
inductive Event where
  | record (d : Drop)
  | clear

namespace Event

def apply (log : DropLog) : Event → DropLog
  | record d => log.record d
  | clear => log.clear

def drop? : Event → Option Drop
  | record d => some d
  | clear => none

end Event

/-- A log from its beginning on. -/
def run (events : List Event) : DropLog := events.foldl Event.apply {}

/-- All drops that were recorded, in order. -/
def recorded (events : List Event) : List Drop := events.filterMap Event.drop?

/-- The drops that were recorded last, with nothing or a clearing before them. -/
def Since (events : List Event) (ds : List Drop) : Prop :=
  ∃ before, events = before ++ ds.map Event.record ∧ ∀ e ∈ before.getLast?, e = Event.clear

/-- The drops that a log holds, oldest first. -/
def stored (log : DropLog) : List Drop := log.recent.reverse

theorem run_concat (events : List Event) (e : Event) : run (events ++ [e]) = e.apply (run events) := by
  rw [run, run, List.foldl_append, List.foldl_cons, List.foldl_nil]

theorem recorded_record (events : List Event) (d : Drop) :
    recorded (events ++ [.record d]) = recorded events ++ [d] := by
  rw [recorded, List.filterMap_append]
  rfl

theorem recorded_clear (events : List Event) : recorded (events ++ [.clear]) = recorded events := by
  rw [recorded, List.filterMap_append]
  exact List.append_nil _

theorem Since.nil : Since [] [] := ⟨[], rfl, nofun⟩

theorem Since.clear (events : List Event) : Since (events ++ [.clear]) [] := by
  refine ⟨events ++ [.clear], (List.append_nil _).symm, ?_⟩
  intro e he
  rw [List.getLast?_concat] at he
  exact (Option.some.inj he).symm

theorem Since.record {events : List Event} (h : Since events ds) (d : Drop) :
    Since (events ++ [.record d]) (ds ++ [d]) := by
  obtain ⟨before, rfl, hbefore⟩ := h
  exact ⟨before, by rw [List.append_assoc, List.map_append]; rfl, hbefore⟩

/-- What was recorded last cannot reach over a clearing. -/
theorem Since.length_le {events : List Event} {more : List Drop} (h : Since events ds)
    (hmore : Since events more) : more.length ≤ ds.length := by
  obtain ⟨before, rfl, hbefore⟩ := h
  obtain ⟨other, hother, -⟩ := hmore
  rcases List.append_eq_append_iff.mp hother with ⟨between, -, hrecords⟩ | ⟨between, rfl, hrecords⟩
  · have hlength := congrArg List.length hrecords
    rw [List.length_append, List.length_map, List.length_map] at hlength
    omega
  · -- What ends in front of `ds` is a clearing, and `more` has drops only.
    cases between using List.reverseRecOn with
    | nil =>
      have hlength := congrArg List.length hrecords
      rw [List.nil_append, List.length_map, List.length_map] at hlength
      exact hlength.le
    | append_singleton front e =>
      have hclear : e = .clear := hbefore e (by rw [← List.append_assoc, List.getLast?_concat]; rfl)
      have hmem : Event.clear ∈ more.map Event.record := by
        rw [hrecords, hclear]
        simp
      simp at hmem

theorem Since.unique {events : List Event} {more : List Drop} (h : Since events ds)
    (hmore : Since events more) : ds = more := by
  have hlength : ds.length = more.length := Nat.le_antisymm (hmore.length_le h) (h.length_le hmore)
  obtain ⟨before, hevents, -⟩ := h
  obtain ⟨other, hother, -⟩ := hmore
  have hrecords := List.append_inj_right' (hevents.symm.trans hother) (by simp [hlength])
  exact List.map_injective_iff.mpr (fun _ _ => Event.record.inj) hrecords

/-! ## The drops that are held -/

/-- Cutting a list to a length before it grows at its front makes no difference to cutting it afterwards. -/
theorem take_cons_take {α : Type} (n : Nat) (a : α) (l : List α) :
    (a :: l.take n).take n = (a :: l).take n := by
  cases n with
  | zero => rfl
  | succ n => rw [List.take_succ_cons, List.take_succ_cons, List.take_take, Nat.min_eq_left n.le_succ]

/-- **A log holds the latest drops since it was last cleared.** -/
theorem exists_since (events : List Event) :
    ∃ ds, Since events ds ∧ (run events).recent = ds.reverse.take capacity := by
  induction events using List.reverseRecOn with
  | nil => exact ⟨[], Since.nil, rfl⟩
  | append_singleton events e ih =>
    obtain ⟨ds, hsince, hrecent⟩ := ih
    rw [run_concat]
    cases e with
    | clear => exact ⟨[], Since.clear events, rfl⟩
    | record d =>
      refine ⟨ds ++ [d], hsince.record d, ?_⟩
      change (d :: (run events).recent).take capacity = _
      rw [hrecent, take_cons_take, List.reverse_concat]

/-! ## The counts -/

/-- The sum of the quantities of some drops. -/
def quantity (ds : List Drop) : Nat := (ds.map fun d => d.quantity.toNat).sum

theorem quantity_concat (ds : List Drop) (d : Drop) :
    quantity (ds ++ [d]) = quantity ds + d.quantity.toNat := by
  rw [quantity, quantity, List.map_append, List.sum_append, List.map_singleton, List.sum_singleton]

/-- **The total** is over all drops that were ever recorded. -/
theorem toNat_total_run (events : List Event) :
    (run events).total.toNat = quantity (recorded events) % 2 ^ 64 := by
  induction events using List.reverseRecOn with
  | nil => rfl
  | append_singleton events e ih =>
    rw [run_concat]
    cases e with
    | clear =>
      rw [recorded_clear, ← ih]
      rfl
    | record d =>
      change ((run events).total + d.quantity).toNat = _
      rw [recorded_record, quantity_concat, UInt64.toNat_add, ih, Nat.mod_add_mod]

/-- **The count of a reason** is over the drops that were ever recorded for it. -/
theorem toNat_counts_run (events : List Event) (reason : Drop.Reason) :
    ((run events).counts.get reason).toNat =
      quantity ((recorded events).filter fun d => d.reason = reason) % 2 ^ 64 := by
  induction events using List.reverseRecOn with
  | nil =>
    rw [run, List.foldl_nil, DropCounts.get_zero]
    rfl
  | append_singleton events e ih =>
    rw [run_concat]
    cases e with
    | clear =>
      rw [recorded_clear, ← ih]
      rfl
    | record d =>
      change (((run events).counts.add d.reason d.quantity).get reason).toNat = _
      rw [recorded_record, List.filter_append, DropCounts.get_add]
      by_cases h : reason = d.reason
      · subst h
        rw [if_pos rfl, UInt64.toNat_add, ih, Nat.mod_add_mod, List.filter_singleton]
        simp only [decide_true, cond_true, quantity_concat]
      · rw [if_neg h, ih, List.filter_singleton]
        simp only [Ne.symm h, decide_false, cond_false, List.append_nil]

/-- The counts of all reasons add up to the total. -/
theorem total_run (events : List Event) :
    (run events).total = (Drop.Reason.all.map (run events).counts.get).sum := by
  induction events using List.reverseRecOn with
  | nil => rfl
  | append_singleton events e ih =>
    rw [run_concat]
    cases e with
    | clear => exact ih
    | record d =>
      change (run events).total + d.quantity = _
      rw [ih]
      exact (DropCounts.sum_get_add _ _ _).symm

/-! ## A queue of drops -/

/-- A log that holds its drops in a queue, the oldest at the front. -/
structure Queue where
  total : UInt64 := 0
  counts : DropCounts := {}
  stored : List Drop := []

namespace Queue

variable {q : Queue}

/-- The oldest drop leaves a full queue before the next one enters at the back. -/
def record (q : Queue) (d : Drop) : Queue :=
  let kept := if q.stored.length ≥ capacity then q.stored.tail else q.stored
  ⟨q.total + d.quantity, q.counts.add d.reason d.quantity, kept ++ [d]⟩

def clear (q : Queue) : Queue := { q with stored := [] }

/-- Walks from the back of the queue to its front. -/
def latest (q : Queue) (n : Nat) : List Drop := q.stored.reverse.take (min n q.stored.length)

def apply (q : Queue) : Event → Queue
  | .record d => q.record d
  | .clear => q.clear

def run (events : List Event) : Queue := events.foldl apply {}

/-- The log that a queue stands for. -/
def log (q : Queue) : DropLog := ⟨q.total, q.counts, q.stored.reverse⟩

theorem length_record (h : q.stored.length ≤ capacity) (d : Drop) :
    (q.record d).stored.length ≤ capacity := by
  have hcapacity : 0 < capacity := by decide
  rw [record, List.length_append, List.length_singleton]
  split
  · rw [List.length_tail]
    omega
  · omega

theorem log_record (h : q.stored.length ≤ capacity) (d : Drop) : (q.record d).log = q.log.record d := by
  have hrecent : (q.record d).stored.reverse = (d :: q.stored.reverse).take capacity := by
    rw [record, List.reverse_concat]
    split
    · next hfull =>
      have hlength : q.stored.reverse.length = capacity := by
        rw [List.length_reverse]
        exact Nat.le_antisymm h hfull
      rw [← List.dropLast_reverse, List.dropLast_eq_take, hlength]
      rfl
    · next hroom =>
      rw [List.take_of_length_le]
      rw [List.length_cons, List.length_reverse]
      omega
  rw [log, hrecent]
  rfl

theorem latest_eq (q : Queue) (n : Nat) : q.latest n = q.log.latest n := by
  rw [latest, ← List.length_reverse, ← List.take_eq_take_min]
  rfl

/-- **The queue stands for the log**, and is never longer than the log may be. -/
theorem log_run (events : List Event) :
    (run events).log = DropLog.run events ∧ (run events).stored.length ≤ capacity := by
  induction events using List.reverseRecOn with
  | nil => exact ⟨rfl, Nat.zero_le _⟩
  | append_singleton events e ih =>
    obtain ⟨hlog, hlength⟩ := ih
    have hrun : run (events ++ [e]) = (run events).apply e := by
      rw [run, run, List.foldl_append, List.foldl_cons, List.foldl_nil]
    rw [run_concat, hrun, ← hlog]
    cases e with
    | clear => exact ⟨rfl, Nat.zero_le _⟩
    | record d => exact ⟨log_record hlength d, length_record hlength d⟩

end Queue

/-! ## What a log shows -/

/-- A log shows what happened to it, with certain drops since it was last cleared. -/
structure Reflects (events : List Event) (ds : List Drop) (log : DropLog) : Prop where
  since : ∀ more, Since events more ↔ more = ds
  stored : log.stored = ds.rtake (min capacity ds.length)
  latest : ∀ n, log.latest n = (log.stored.rtake (min n log.stored.length)).reverse
  /-- Every drop counts, whether or not it is still held. -/
  total : log.total.toNat = quantity (recorded events) % 2 ^ 64
  counts : ∀ reason, (log.counts.get reason).toNat =
    quantity ((recorded events).filter fun d => d.reason = reason) % 2 ^ 64
  balanced : log.total = (Drop.Reason.all.map log.counts.get).sum

/-- The last elements of a list, of which there may be fewer. -/
theorem rtake_min_length {α : Type} (n : Nat) (l : List α) :
    l.rtake (min n l.length) = (l.reverse.take n).reverse := by
  rw [← List.rtake_eq_reverse_take_reverse, List.rtake, List.rtake]
  congr 1
  omega

/-- **A log is a faithful bounded memory**, whatever it recorded and whenever it was cleared, and the queue
shows the same.  No reason is missing from the sum over all of them, and none is in it twice. -/
theorem run_reflects (events : List Event) :
    (∃ ds, Reflects events ds (run events)) ∧ (∀ reason, Drop.Reason.all.count reason = 1) ∧
      (Queue.run events).stored = (run events).stored ∧
      (∀ n, (Queue.run events).latest n = (run events).latest n) ∧
      (Queue.run events).total = (run events).total ∧ (Queue.run events).counts = (run events).counts := by
  obtain ⟨hlog, -⟩ := Queue.log_run events
  obtain ⟨ds, hsince, hrecent⟩ := exists_since events
  refine ⟨⟨ds, fun more => ?_, ?_, fun n => ?_, toNat_total_run events, toNat_counts_run events,
    total_run events⟩, Drop.Reason.count_all, ?_, fun n => ?_, ?_, ?_⟩
  · exact ⟨fun h => h.unique hsince, fun h => h ▸ hsince⟩
  · rw [stored, hrecent, rtake_min_length]
  · rw [rtake_min_length, List.reverse_reverse, stored, List.reverse_reverse]
    rfl
  · rw [← hlog, stored, Queue.log, List.reverse_reverse]
  · rw [Queue.latest_eq, hlog]
  · rw [← hlog]
    rfl
  · rw [← hlog]
    rfl

end DropLog

end Telemetry

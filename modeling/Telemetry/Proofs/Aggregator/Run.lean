import Telemetry.Proofs.Aggregator.Placement

/-!
# Runs of an aggregator

A run is a list of requests that are served one after another, each with the clock reading that it
sees.  The history of a run pairs every request with its answer.
-/

namespace Telemetry.Aggregator

variable {ν : Type}

/-- What can be asked of an aggregator. -/
inductive Request (ν : Type) where
  | merge (now : UInt64) (key : BucketKey) (value : Value ν)
  | mergePoint (now : UInt64) (scope : Scope) (point : Point ν)
  | mergeBucket (now : UInt64) (bucket : Bucket ν)
  | drainDue (now : UInt64)
  | drainAll
  | close
  | size

/-- What an aggregator answers. -/
inductive Answer (ν : Type) where
  | outcome (o : Outcome)
  | buckets (bs : List (Bucket ν))
  | count (n : Nat)
  | closed

/-- Requests with their answers, in order. -/
abbrev History (ν : Type) := List (Request ν × Answer ν)

/-- The key and the value that a request submits. -/
def Request.submission? : Request ν → Option (BucketKey × Value ν)
  | .merge _ key value => some (key, value)
  | .mergePoint _ scope p => some (⟨scope, p.name, p.tags, p.timestamp⟩, p.value)
  | .mergeBucket _ b => some (b.key, b.value)
  | .drainDue _ | .drainAll | .close | .size => none

variable [Add ν] [LT ν] [DecidableLT ν]

def serve (a : Aggregator ν) : Request ν → Answer ν × Aggregator ν
  | .merge now key value => (a.merge now key value).map .outcome id
  | .mergePoint now scope p => (a.mergePoint now scope p).map .outcome id
  | .mergeBucket now b => (a.mergeBucket now b).map .outcome id
  | .drainDue now => (a.drainDue now).map .buckets id
  | .drainAll => a.drainAll.map .buckets id
  | .close => (.closed, a.close)
  | .size => (.count a.size, a)

/-- The history of some requests and the aggregator after them. -/
def run (a : Aggregator ν) : List (Request ν) → History ν × Aggregator ν
  | [] => ([], a)
  | r :: rest =>
    let (answer, a) := a.serve r
    let (history, a) := a.run rest
    ((r, answer) :: history, a)

theorem run_cons (a : Aggregator ν) (r : Request ν) (rest : List (Request ν)) :
    a.run (r :: rest) =
      ((r, (a.serve r).1) :: ((a.serve r).2.run rest).1, ((a.serve r).2.run rest).2) := rfl

theorem run_append (a : Aggregator ν) (requests more : List (Request ν)) :
    a.run (requests ++ more) = ((a.run requests).1 ++ ((a.run requests).2.run more).1,
      ((a.run requests).2.run more).2) := by
  induction requests generalizing a with
  | nil => rfl
  | cons r rest ih =>
    rw [List.cons_append, run_cons, run_cons, ih]
    rfl

/-- Every request is a submission, a drain of some class of buckets, the closing or a count. -/
theorem serve_cases (a : Aggregator ν) (r : Request ν) :
    (∃ now k v, r.submission? = some (k, v) ∧
      a.serve r = (.outcome (a.merge now k v).1, (a.merge now k v).2)) ∨
    (∃ leaves, r.submission? = none ∧
      a.serve r = (.buckets (a.drain leaves).1, (a.drain leaves).2)) ∨
    (r.submission? = none ∧ a.serve r = (.closed, a.close)) ∨
    (r.submission? = none ∧ a.serve r = (.count a.size, a)) := by
  cases r with
  | merge now k v => exact Or.inl ⟨now, k, v, rfl, rfl⟩
  | mergePoint now scope p => exact Or.inl ⟨now, _, _, rfl, rfl⟩
  | mergeBucket now b => exact Or.inl ⟨now, _, _, rfl, rfl⟩
  | drainDue now => exact Or.inr (Or.inl ⟨fun b => b.dueAt ≤ now, rfl, rfl⟩)
  | drainAll => exact Or.inr (Or.inl ⟨fun _ => true, rfl, rfl⟩)
  | close => exact Or.inr (Or.inr (Or.inl ⟨rfl, rfl⟩))
  | size => exact Or.inr (Or.inr (Or.inr ⟨rfl, rfl⟩))

namespace WF

variable {a : Aggregator ν}

theorem merge (h : WF a) (now : UInt64) (k : BucketKey) (v : Value ν) :
    WF (a.merge now k v).2 := by
  rcases merge_cases now k v a with ⟨o, -, he⟩ | ⟨a', ha, he⟩
  · rw [he]
    exact h
  · rw [he]
    exact h.place ha

theorem serve (h : WF a) (r : Request ν) : WF (a.serve r).2 := by
  rcases serve_cases a r with ⟨now, k, v, -, he⟩ | ⟨leaves, -, he⟩ | ⟨-, he⟩ | ⟨-, he⟩ <;> rw [he]
  · exact h.merge now k v
  · exact h.drain leaves
  · exact h.close
  · exact h

theorem run (h : WF a) (requests : List (Request ν)) : WF (a.run requests).2 := by
  induction requests generalizing a with
  | nil => exact h
  | cons r rest ih => exact ih (h.serve r)

end WF

/-- No request changes the settings. -/
theorem settings_serve (a : Aggregator ν) (r : Request ν) :
    (a.serve r).2.settings = a.settings := by
  rcases serve_cases a r with ⟨now, k, v, -, he⟩ | ⟨leaves, -, he⟩ | ⟨-, he⟩ | ⟨-, he⟩ <;> rw [he]
  · rcases merge_cases now k v a with ⟨o, -, hm⟩ | ⟨a', ha, hm⟩ <;> rw [hm]
    exact (place?_frame ha).1
  · rfl
  · rfl

theorem settings_run (a : Aggregator ν) (requests : List (Request ν)) :
    (a.run requests).2.settings = a.settings := by
  induction requests generalizing a with
  | nil => rfl
  | cons r rest ih =>
    rw [run_cons]
    exact (ih _).trans (settings_serve a r)

end Telemetry.Aggregator

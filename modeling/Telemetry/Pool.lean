/-!
# A pool of workers

Tasks are accepted into a queue, taken from its front by workers and finished.  Once the pool is
closed it accepts nothing more, but what it accepted still runs, unless a bounded wait for it fails:
then the tasks that no worker has taken yet are discarded.

The state is what the workers share under one lock, and each function is one critical section.
-/

namespace Telemetry

structure Pool (τ : Type) where
  /-- How many tasks run at once. -/
  workers : Nat
  accepting : Bool := true
  /-- Accepted and not taken, oldest first. -/
  queued : List τ := []
  /-- Taken and not finished, in the order taken. -/
  running : List τ := []
  /-- Finished, in that order. -/
  finished : List τ := []
  /-- Accepted and given up. -/
  discarded : List τ := []
  deriving DecidableEq

namespace Pool

variable {τ : Type}

/-- A pool has at least one worker. -/
def create (workers : Nat) : Pool τ := { workers := max workers 1 }

/-- Queues a task and tells whether it was accepted. -/
def submit (t : τ) (p : Pool τ) : Bool × Pool τ :=
  if p.accepting then (true, { p with queued := p.queued ++ [t] }) else (false, p)

/-- A worker is free. -/
def hasFreeWorker (p : Pool τ) : Bool := p.running.length < p.workers

/-- A free worker takes the oldest task. -/
def take (p : Pool τ) : Pool τ :=
  match p.queued with
  | [] => p
  | t :: rest =>
    if p.hasFreeWorker then { p with queued := rest, running := p.running ++ [t] } else p

/-- The task taken last is done. -/
def finishLast (p : Pool τ) : Pool τ :=
  match p.running.getLast? with
  | none => p
  | some t => { p with running := p.running.dropLast, finished := p.finished ++ [t] }

/-- The task at a place among the running ones is done. -/
def finish (i : Nat) (p : Pool τ) : Pool τ :=
  match p.running[i]? with
  | none => p
  | some t => { p with running := p.running.eraseIdx i, finished := p.finished ++ [t] }

/-- How many accepted tasks are not done. -/
def pending (p : Pool τ) : Nat := p.queued.length + p.running.length

/-- No accepted task is left. -/
def isIdle (p : Pool τ) : Bool := p.queued.isEmpty && p.running.isEmpty

/-- Accepts nothing more. -/
def close (p : Pool τ) : Pool τ := { p with accepting := false }

/-- Gives up what no worker has taken. -/
def abandon (p : Pool τ) : Pool τ :=
  { p with queued := [], discarded := p.discarded ++ p.queued }

/-- Ends a bounded wait of a closed pool: in time if it is idle, else the queue is given up. -/
def endWait (p : Pool τ) : Bool × Pool τ := if p.isIdle then (true, p) else (false, p.abandon)

/-- Lets every accepted task come to its end, the oldest first. -/
def settle (p : Pool τ) : Pool τ :=
  { p with queued := [], running := [], finished := p.finished ++ p.running ++ p.queued }

end Pool

end Telemetry

import Telemetry.Listener
import Telemetry.Proofs.Intake.Cut

/-!
# Datagrams and the buffer they are received into

A listener receives every datagram into the same buffer, and takes in what was received as one item of lines.
What the buffer has kept of earlier datagrams is not among it (`Receiver.take_eq`), so a run of the loop, like
that of `receiveAll`, is one item for each datagram that is not empty (`Receiver.run_eq`, `receiveAll_eq`).
That item is the datagram itself only if the buffer holds it: a longer one is cut, and the beginning of the
line at the cut can be merged as if it were a line (`datagrams_received`).
-/

namespace Telemetry

open Bytes

/-! ## One item of lines -/

namespace Intake

/-- Nothing of an envelope is taken in. -/
def refuses (phase : Phase) (project : Project) : Bool := decide (phase ≠ .running ∨ project.disabled)

/-- Takes in an envelope with one item, the lines of a datagram. -/
def takeLines (phase : Phase) (project : Project) (d : Listener.Datagram) (s : Intake) : Progress :=
  if refuses phase project then
    ({ s with envelopes := s.envelopes + 1, rejected := s.rejected + 1 }, {})
  else Effect.applyAll ({ s with envelopes := s.envelopes + 1 }, { accepted := true })
    (metricsEffects (d.clock 0) d.received project.scope d.content)

variable (phase : Phase) (project : Project) (d : Listener.Datagram) (s : Intake)

theorem process_lines :
    s.process phase d.clock ⟨project.scope.project, none, d.received, [⟨.metrics, d.content, false⟩]⟩
      project = .ok (s.takeLines phase project d) := by
  unfold process takeLines
  simp only [refuses, decide_eq_true_eq]
  split
  · rfl
  · rw [← metrics_eq]
    rfl

theorem accepted_takeLines :
    (s.takeLines phase project d).2.accepted = !refuses phase project := by
  unfold takeLines
  cases refuses phase project with
  | true => rfl
  | false => exact congrArg Report.accepted (report_applyAll ..)

end Intake

namespace Listener

open Intake (metricsEffects)

/-! ## The loop that receives -/

/-- A datagram on its arrival. -/
structure Arrival where
  phase : Phase
  datagram : Datagram

/-- What fits of a datagram is copied to the front of the buffer; the second part is how much that is. -/
def fill (buffer datagram : Bytes) : Bytes × Nat :=
  let n := min datagram.length buffer.length
  (datagram.take n ++ buffer.drop n, n)

/-- The loop between two datagrams: all of them are received into the same buffer. -/
structure Receiver where
  buffer : Bytes
  listener : Listener
  intake : Intake

namespace Receiver

/-- The buffer is all zeros at first. -/
def start (l : Listener) (s : Intake) : Receiver := ⟨List.replicate l.buffer 0, l, s⟩

/-- Receives a datagram, and handles the front of the buffer unless nothing was received. -/
def take (r : Receiver) (a : Arrival) : Except Extraction.EncodingError Receiver :=
  let (buffer, n) := fill r.buffer a.datagram.content
  if n = 0 then .ok { r with buffer }
  else
    (handle a.phase { a.datagram with content := buffer.take n }
      { r.listener with received := r.listener.received + 1 } r.intake).map fun (listener, intake) =>
        ⟨buffer, listener, intake⟩

def run (arrivals : List Arrival) (r : Receiver) : Except Extraction.EncodingError Receiver :=
  arrivals.foldlM take r

end Receiver

variable {l : Listener} {r : Receiver}

/-! ## One datagram -/

theorem length_fill (buffer datagram : Bytes) : (fill buffer datagram).1.length = buffer.length := by
  rw [fill, List.length_append, List.length_take, List.length_drop]
  omega

/-- The front of the buffer is what fits of the datagram, with nothing of an earlier one. -/
theorem take_fill (buffer datagram : Bytes) :
    (fill buffer datagram).1.take (fill buffer datagram).2 = datagram.take buffer.length := by
  have hlength : (datagram.take (min datagram.length buffer.length)).length =
      min datagram.length buffer.length := by
    rw [List.length_take]
    omega
  rw [fill, List.take_left' hlength, Nat.min_comm, ← List.take_eq_take_min]

theorem handle_eq (phase : Phase) (d : Datagram) (l : Listener) (s : Intake) :
    handle phase d l s = .ok
      ({ l with rejected := l.rejected + (Intake.refuses phase l.project).toNat },
        (s.takeLines phase l.project d).1) := by
  have hprocess : s.process phase d.clock (l.envelope d.received d.content) l.project = _ :=
    Intake.process_lines phase l.project d s
  have haccepted := Intake.accepted_takeLines phase l.project d s
  rw [handle, hprocess]
  refine congrArg Except.ok (Prod.ext ?_ rfl)
  change (if (s.takeLines phase l.project d).2.accepted then l else
    { l with rejected := l.rejected + 1 }) = _
  rw [haccepted]
  cases Intake.refuses phase l.project <;> rfl

/-- The listener and the intake after a datagram. -/
def after (l : Listener) (s : Intake) (a : Arrival) : Listener × Intake :=
  if a.datagram.content.isEmpty then (l, s)
  else
    ({ l with received := l.received + 1, rejected := l.rejected + (Intake.refuses a.phase l.project).toNat },
      (s.takeLines a.phase l.project (a.datagram.cut l.buffer)).1)

theorem receive_eq (a : Arrival) (l : Listener) (s : Intake) :
    receive a.phase a.datagram l s = .ok (after l s a) := by
  unfold receive after
  split
  · rfl
  · exact handle_eq a.phase _ _ s

theorem buffer_after (l : Listener) (s : Intake) (a : Arrival) : (after l s a).1.buffer = l.buffer := by
  unfold after
  split <;> rfl

/-! ## Many datagrams -/

def afterAll (l : Listener) (s : Intake) (arrivals : List Arrival) : Listener × Intake :=
  arrivals.foldl (fun p a => after p.1 p.2 a) (l, s)

/-- The datagrams that are not ignored. -/
def nonempty (arrivals : List Arrival) : List Arrival :=
  arrivals.filter fun a => !a.datagram.content.isEmpty

/-- Every datagram counts that is not empty, and what fits of it is taken in. -/
theorem afterAll_eq (l : Listener) (s : Intake) (arrivals : List Arrival) : afterAll l s arrivals =
    ({ l with
      received := l.received + (nonempty arrivals).length
      rejected := l.rejected + (nonempty arrivals).countP fun a => Intake.refuses a.phase l.project },
      (nonempty arrivals).foldl
        (fun s a => (s.takeLines a.phase l.project (a.datagram.cut l.buffer)).1) s) := by
  induction arrivals generalizing l s with
  | nil => rfl
  | cons a rest ih =>
    change afterAll (after l s a).1 (after l s a).2 rest = _
    rw [ih]
    cases hempty : a.datagram.content.isEmpty with
    | true =>
      have hrest : nonempty (a :: rest) = nonempty rest :=
        List.filter_cons_of_neg (by simp [hempty])
      rw [after, if_pos hempty, hrest]
    | false =>
      have hrest : nonempty (a :: rest) = a :: nonempty rest :=
        List.filter_cons_of_pos (by simp [hempty])
      rw [after, if_neg (by simp [hempty]), hrest, List.length_cons, List.countP_cons, List.foldl_cons]
      refine Prod.ext ?_ rfl
      rw [Listener.mk.injEq]
      refine ⟨rfl, rfl, rfl, by dsimp only; omega, ?_⟩
      cases Intake.refuses a.phase l.project <;> simp [Nat.add_assoc, Nat.add_comm 1]

theorem receiveAll_eq (phase : Phase) (datagrams : List Datagram) (l : Listener) (s : Intake) :
    receiveAll phase datagrams l s = .ok (afterAll l s (datagrams.map (Arrival.mk phase))) := by
  induction datagrams generalizing l s with
  | nil => rfl
  | cons d rest ih =>
    have hfirst : receive phase d l s = .ok (after l s ⟨phase, d⟩) := receive_eq ⟨phase, d⟩ l s
    rw [receiveAll, List.foldlM_cons]
    dsimp only
    rw [hfirst]
    exact ih _ _

namespace Receiver

/-- The buffer has the length that the listener asked for, at least one byte. -/
structure Ready (r : Receiver) : Prop where
  length : r.buffer.length = r.listener.buffer
  pos : 0 < r.listener.buffer

theorem ready_start (hpos : 0 < l.buffer) (s : Intake) : (start l s).Ready := ⟨List.length_replicate, hpos⟩

/-- **Receiving into the buffer is receiving what fits**, whatever the buffer holds. -/
theorem take_eq (h : r.Ready) (a : Arrival) : r.take a =
    (receive a.phase a.datagram r.listener r.intake).map fun (listener, intake) =>
      ⟨(fill r.buffer a.datagram.content).1, listener, intake⟩ := by
  -- With no room at all, every datagram would look empty.
  have hnone : (fill r.buffer a.datagram.content).2 = 0 ↔ a.datagram.content.isEmpty = true := by
    have hpos : 0 < r.buffer.length := h.length ▸ h.pos
    rw [List.isEmpty_iff, ← List.length_eq_zero_iff, fill]
    omega
  have hfront := take_fill r.buffer a.datagram.content
  rw [h.length] at hfront
  unfold take receive
  dsimp only
  by_cases hempty : a.datagram.content.isEmpty = true
  · rw [if_pos (hnone.mpr hempty), if_pos hempty]
    rfl
  · rw [if_neg (mt hnone.mp hempty), if_neg hempty, hfront]
    rfl

theorem run_eq (h : r.Ready) (arrivals : List Arrival) : ∃ buffer, r.run arrivals =
    .ok ⟨buffer, (afterAll r.listener r.intake arrivals).1, (afterAll r.listener r.intake arrivals).2⟩ := by
  induction arrivals generalizing r with
  | nil => exact ⟨r.buffer, rfl⟩
  | cons a rest ih =>
    have hready : Ready ⟨(fill r.buffer a.datagram.content).1, (after r.listener r.intake a).1,
        (after r.listener r.intake a).2⟩ := by
      refine ⟨?_, ?_⟩
      · rw [length_fill, buffer_after, h.length]
      · rw [buffer_after]
        exact h.pos
    obtain ⟨buffer, hrest⟩ := ih hready
    refine ⟨buffer, ?_⟩
    rw [run, List.foldlM_cons, take_eq h, receive_eq]
    exact hrest

end Receiver

/-! ## The size of the buffer -/

theorem buffer_pos (host : Bytes) (size : Nat) (project : Project) :
    0 < (create host size project).buffer := by
  change 0 < min (max size 1) maxDatagram
  rw [maxDatagram]
  omega

/-- Any other length that a datagram may have fits exactly if it was asked for. -/
theorem le_buffer_iff {host : Bytes} {size n : Nat} {project : Project} (hlow : 1 < n)
    (hhigh : n ≤ maxDatagram) :
    n ≤ (create host size project).buffer ↔ n ≤ size := by
  change n ≤ min (max size 1) maxDatagram ↔ _
  omega

/-- **What a listener takes in.**  Of each datagram that is not empty, what fits into the buffer is
processed as one item of lines: the lines in front of the cut, and the beginning of the line at the
cut as if it were one.  That asks for the same as the whole datagram exactly if the line at the cut
comes to the same and only blank lines are lost.  So every datagram is taken in as it was sent
exactly if the size that was asked for is at least that of the longest one.  For each lesser size
that has room for a line, some datagram has a point merged that none of its lines submits. -/
theorem datagrams_received (host : Bytes) (size : Nat) (project : Project) :
    let l := create host size project
    (∀ arrivals s, ∃ buffer, (Receiver.start l s).run arrivals = .ok ⟨buffer,
      { l with
        received := (nonempty arrivals).length
        rejected := (nonempty arrivals).countP fun a => Intake.refuses a.phase project },
      (nonempty arrivals).foldl
        (fun s a => (s.takeLines a.phase project (a.datagram.cut l.buffer)).1) s⟩) ∧
    (∀ phase (d : Datagram) (s : Intake), s.process phase d.clock (l.envelope d.received d.content)
      project = .ok (s.takeLines phase project d)) ∧
    ∀ clock now,
      (∀ d : Bytes, ∃ whole start more lost, Line.Cut d l.buffer whole start more lost ∧
        (d.length ≤ l.buffer ↔ more = [] ∧ lost = []) ∧
        (∀ p, p ∈ Line.points (d.take l.buffer) now ↔
          ∃ line ∈ whole ++ [start], Line.parse line now = .ok p) ∧
        (metricsEffects clock now project.scope (d.take l.buffer) =
            metricsEffects clock now project.scope d ↔
          Line.outcome now start = Line.outcome now (start ++ more) ∧ ∀ line ∈ lost, Line.Blank line)) ∧
      ((∀ d : Bytes, d.length ≤ maxDatagram → metricsEffects clock now project.scope (d.take l.buffer) =
          metricsEffects clock now project.scope d) ↔
        maxDatagram ≤ size) ∧
      ((∃ d : Bytes, d.length ≤ maxDatagram ∧ ∃ p ∈ Line.points (d.take l.buffer) now,
          ∀ line ∈ split (byte '\n') d, Line.parse line now ≠ .ok p) ↔
        5 ≤ size ∧ size < maxDatagram) := by
  intro l
  refine ⟨?_, fun phase d s => Intake.process_lines phase project d s, ?_⟩
  · intro arrivals s
    obtain ⟨buffer, hrun⟩ :=
      Receiver.run_eq (Receiver.ready_start (buffer_pos host size project) s) arrivals
    refine ⟨buffer, hrun.trans ?_⟩
    rw [Receiver.start, afterAll_eq]
    simp only [l, create, Nat.zero_add]
  · intro clock now
    refine ⟨?_, ?_, ?_⟩
    · intro d
      obtain ⟨whole, start, more, lost, hcut⟩ := Line.exists_cut d l.buffer
      exact ⟨whole, start, more, lost, hcut, hcut.fits_iff, fun p => hcut.mem_points_take_iff,
        Intake.effects_take_iff hcut⟩
    · rw [Intake.forall_effects_take_iff]
      exact le_buffer_iff (by decide) (Nat.le_refl maxDatagram)
    · rw [Line.exists_cut_point_iff, ← Nat.not_le, ← Nat.not_le,
        le_buffer_iff (by decide) (Nat.le_refl maxDatagram), le_buffer_iff (by decide) (by decide)]

/-- A buffer of the usual size, and one of the size of a page. -/
theorem datagrams_received_sizes :
    let clock : Nat → UInt64 := fun n => UInt64.ofNat (1700000001 + n)
    let buffer (size : Nat) := (create (ascii "127.0.0.1") size { scope := ⟨1, 42⟩ }).buffer
    metricsEffects clock 1700000000 ⟨1, 42⟩ ((ascii "a:1|c|#b:c").take (buffer 65536)) =
        metricsEffects clock 1700000000 ⟨1, 42⟩ (ascii "a:1|c|#b:c") ∧
      ∃ d : Bytes, d.length ≤ maxDatagram ∧ ∃ p ∈ Line.points (d.take (buffer 4096)) 1700000000,
        ∀ line ∈ split (byte '\n') d, Line.parse line 1700000000 ≠ .ok p := by
  intro clock buffer
  obtain ⟨-, -, husual⟩ := datagrams_received (ascii "127.0.0.1") 65536 { scope := ⟨1, 42⟩ }
  obtain ⟨-, -, hpage⟩ := datagrams_received (ascii "127.0.0.1") 4096 { scope := ⟨1, 42⟩ }
  exact ⟨(husual clock 1700000000).2.1.mpr (by decide) _ (by decide),
    (hpage clock 1700000000).2.2.mpr (by decide)⟩

/-- A buffer of 15 bytes cuts the value of a tag, and what is left of it is merged. -/
theorem cut_tag_merged :
    let project : Project := { scope := ⟨1, 42⟩ }
    let l := create (ascii "127.0.0.1") 15 project
    let d : Datagram := ⟨ascii "a:1|c|#env:production", 1700000000, .still 1700000001⟩
    let s : Intake := { aggregator := .empty {} 1 }
    let tags (s : Intake) : List Tags := s.aggregator.drainAll.1.map fun b => b.key.tags
    (receive .running d l s).map (fun p => (tags p.2, p.2.log.total)) =
        .ok ([[(ascii "env", ascii "prod")]], 0) ∧
      (s.process .running d.clock (l.envelope d.received d.content) project).map
          (fun p => (tags p.1, p.1.log.total)) =
        .ok ([[(ascii "env", ascii "production")]], 0) ∧
      (split (byte '\n') d.content).map (fun line => (Line.parse line d.received).map Point.tags) =
        [.ok [(ascii "env", ascii "production")]] :=
  ⟨by decide +kernel, by decide +kernel, by decide +kernel⟩

end Listener

end Telemetry

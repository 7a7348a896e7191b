import Telemetry.Proofs.Event.Times
import Telemetry.Transaction

/-!
# The time of extracted points

All points of a session have its start as their time, and all points of a transaction its end, as a word
(`Session.timestamp_of_mem_points`, `Transaction.timestamp_of_mem_points`).  The word is the time without its
fraction if the time is in the range of the words.  Nothing checks that it is.
-/

namespace Telemetry

open Binary64

theorem Session.timestamp_of_mem_points {session : Json} {sdk : Option Bytes} {points : List (Point Float)}
    (h : points? session sdk = some points) :
    ∃ started, Event.timeAt? session "started" = some started ∧
      ∀ p ∈ points, p.timestamp = toWord started := by
  obtain ⟨release, -, h⟩ := Option.bind_eq_some_iff.mp h
  obtain ⟨started, hstarted, h⟩ := Option.bind_eq_some_iff.mp h
  obtain rfl := Option.some.inj h
  refine ⟨started, hstarted, fun p hp => ?_⟩
  rcases List.mem_cons.mp hp with rfl | hp
  · rfl
  · split at hp
    · obtain rfl := List.mem_singleton.mp hp
      rfl
    · cases hp

theorem Transaction.timestamp_of_mem_points {config : Config} {event : Json} {points : List (Point Float)}
    (h : points? config event = some points) :
    ∃ stop, Event.timeAt? event "timestamp" = some stop ∧ ∀ p ∈ points, p.timestamp = toWord stop := by
  obtain ⟨_, -, h⟩ := Option.bind_eq_some_iff.mp h
  obtain ⟨_, -, h⟩ := Option.bind_eq_some_iff.mp h
  obtain ⟨stop, hstop, h⟩ := Option.bind_eq_some_iff.mp h
  obtain rfl := Option.some.inj h
  refine ⟨stop, hstop, fun p hp => ?_⟩
  obtain ⟨r, -, rfl⟩ := List.mem_map.mp hp
  rfl

/-! ## A session for every time -/

/-- A session with a release and a start. -/
def Session.startedAt (start : Json) : Json :=
  .object [(ascii "attrs", .object [(ascii "release", .string (ascii "a"))]), (ascii "started", start)]

theorem Session.get?_startedAt (start : Json) : (startedAt start).get? (ascii "started") = some start := by
  have hother : ascii "started" ≠ ascii "attrs" := by decide +kernel
  rw [startedAt, Json.get?, Ordered.get?, if_neg hother, Ordered.get?, if_pos rfl]

theorem Session.timeAt?_startedAt (start : Json) :
    Event.timeAt? (startedAt start) "started" = Event.time? start := by
  rw [Event.timeAt?, get?_startedAt, Option.bind_some]

/-- Any time that can be read is the time of a session's point. -/
theorem Session.exists_point_of_time {start : Json} {x : Float} (h : Event.time? start = some x) :
    ∃ points, points? (startedAt start) none = some points ∧ ∃ p ∈ points, p.timestamp = toWord x := by
  have hrelease : nonEmpty ((attributes (startedAt start)).text? "release") = some (ascii "a") := by
    have hfull : (ascii "a").isEmpty = false := by decide +kernel
    rw [attributes, startedAt, Json.get?, Ordered.get?, if_pos rfl, Option.getD_some, Json.text?, Json.get?,
      Ordered.get?, if_pos rfl, Option.bind_some, Json.string?, nonEmpty, Option.filter_some, hfull]
    rfl
  unfold points?
  rw [hrelease, timeAt?_startedAt, h]
  exact ⟨_, rfl, _, List.mem_cons_self, rfl⟩

/-- A time is converted into the whole seconds below it exactly if it is neither before 1970 nor too large. -/
theorem Event.floor_iff {j : Json} {x : Float} (h : time? j = some x) :
    ((toWord x).toNat : Int) = ⌊value x⌋ ↔ ¬ BeforeEpoch j ∧ ¬ Huge j := by
  rw [toNat_toWord_eq_floor_iff (isFinite_time? h), ← value_neg_iff h, ← le_value_iff h, not_lt, not_le]

/-- The time of points, if it is one of an event's members, is the whole seconds of that exactly if
it is neither before 1970 nor too large. -/
theorem Event.floor_of_points {event : Json} {name : String} {x : Float} {points : List (Point Float)}
    (h : timeAt? event name = some x) (hpoints : ∀ p ∈ points, p.timestamp = toWord x) :
    ∃ j, event.get? (ascii name) = some j ∧ time? j = some x ∧ ∀ p ∈ points, p.timestamp = toWord x ∧
      ((p.timestamp.toNat : Int) = ⌊value x⌋ ↔ ¬ BeforeEpoch j ∧ ¬ Huge j) := by
  obtain ⟨j, hj, htime⟩ := Option.bind_eq_some_iff.mp h
  refine ⟨j, hj, htime, fun p hp => ⟨hpoints p hp, ?_⟩⟩
  rw [hpoints p hp, floor_iff htime]

/-- **Which times are converted safely.**  A time is finite.  It is negative if it is a text of a
time before 1970, and too large for a word if it is such a number; no other time is either.  All
points of a session or a transaction have its time as their time, and it is the whole seconds of
that time exactly if it is neither.  Nothing checks that it is not: every time is the time of some
session's point. -/
theorem Event.times_of_points (j session event : Json) (sdk : Option Bytes) (config : Config) :
    (∀ x, time? j = some x →
      isFinite x = true ∧ (value x < 0 ↔ BeforeEpoch j) ∧ (2 ^ 64 ≤ value x ↔ Huge j)) ∧
    (∀ points, Session.points? session sdk = some points →
      ∃ start x, session.get? (ascii "started") = some start ∧ time? start = some x ∧
        ∀ p ∈ points, p.timestamp = toWord x ∧
          ((p.timestamp.toNat : Int) = ⌊value x⌋ ↔ ¬ BeforeEpoch start ∧ ¬ Huge start)) ∧
    (∀ points, Transaction.points? config event = some points →
      ∃ stop x, event.get? (ascii "timestamp") = some stop ∧ time? stop = some x ∧
        ∀ p ∈ points, p.timestamp = toWord x ∧
          ((p.timestamp.toNat : Int) = ⌊value x⌋ ↔ ¬ BeforeEpoch stop ∧ ¬ Huge stop)) ∧
    (∀ x, time? j = some x → ∃ points, Session.points? (Session.startedAt j) none = some points ∧
      ∃ p ∈ points, p.timestamp = toWord x) := by
  refine ⟨fun x h => ⟨isFinite_time? h, value_neg_iff h, le_value_iff h⟩, fun points h => ?_,
    fun points h => ?_,
    fun x h => Session.exists_point_of_time h⟩
  · obtain ⟨x, hx, hpoints⟩ := Session.timestamp_of_mem_points h
    obtain ⟨start, hstart⟩ := floor_of_points hx hpoints
    exact ⟨start, x, hstart⟩
  · obtain ⟨x, hx, hpoints⟩ := Transaction.timestamp_of_mem_points h
    obtain ⟨stop, hstop⟩ := floor_of_points hx hpoints
    exact ⟨stop, x, hstop⟩

/-- A session of the seventh second of 1970, in a zone where it is still 1969. -/
theorem Event.times_of_points_seventh_second :
    ∃ points, Session.points? (Session.startedAt (.string (ascii "1969-12-31T23:00:07-01:00"))) none =
      some points ∧
      ∀ p ∈ points, p.timestamp.toNat = 7 := by
  have haccepted : DateTime.Accepted (ascii "1969-12-31T23:00:07-01:00")
      ⟨1969, 12, 31, 23, 0, 7, [], -3600⟩ :=
    DateTime.accepted_of_parse? (by decide +kernel)
  have hvalue : value (DateTime.toFloat ⟨1969, 12, 31, 23, 0, 7, [], -3600⟩) = (7 : Nat) := by
    have hseconds : DateTime.seconds ⟨1969, 12, 31, 23, 0, 7, [], -3600⟩ = (7 : Nat) := by decide
    rw [haccepted.value_toFloat_of_no_fraction rfl, hseconds, Int.cast_natCast]
  have htime := time?_string.mpr ⟨_, haccepted, rfl⟩
  obtain ⟨hchecked, hsession, -, hexists⟩ := Event.times_of_points
    (.string (ascii "1969-12-31T23:00:07-01:00"))
    (Session.startedAt (.string (ascii "1969-12-31T23:00:07-01:00"))) .null none {}
  obtain ⟨-, hbefore, hhuge⟩ := hchecked _ htime
  obtain ⟨points, hpoints, -⟩ := hexists _ htime
  refine ⟨points, hpoints, fun p hp => ?_⟩
  obtain ⟨start, x, hstart, hx, hall⟩ := hsession points hpoints
  obtain rfl := Option.some.inj ((Session.get?_startedAt _).symm.trans hstart)
  obtain rfl := Option.some.inj (htime.symm.trans hx)
  have hfloor := (hall p hp).2.mpr ⟨by rw [← hbefore, hvalue]; norm_num, by rw [← hhuge, hvalue]; norm_num⟩
  rw [hvalue, Int.floor_natCast] at hfloor
  exact_mod_cast hfloor

/-- A second before 1970, and a number beyond the words, are times of sessions: their points are of
the last second that a word can hold, and of the first. -/
theorem Event.second_before_epoch :
    (∃ x, time? (.string (ascii "1969-12-31T23:59:59Z")) = some x ∧ value x = -1) ∧
    (Session.points? (Session.startedAt (.string (ascii "1969-12-31T23:59:59Z"))) none).map
        (·.map (·.timestamp)) =
      some [18446744073709551615] ∧
    (Session.points? (Session.startedAt (.number (.float 1e300))) none).map (·.map (·.timestamp)) =
      some [0] := by
  have hbefore : DateTime.Accepted (ascii "1969-12-31T23:59:59Z") ⟨1969, 12, 31, 23, 59, 59, [], 0⟩ :=
    DateTime.accepted_of_parse? (by decide +kernel)
  refine ⟨⟨_, time?_string.mpr ⟨_, hbefore, rfl⟩, ?_⟩, by decide +kernel, by decide +kernel⟩
  have hseconds : DateTime.seconds ⟨1969, 12, 31, 23, 59, 59, [], 0⟩ = -1 := by decide
  rw [hbefore.value_toFloat_of_no_fraction rfl, hseconds]
  norm_num

end Telemetry

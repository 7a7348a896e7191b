import Telemetry.Proofs.Bucket.Wire
import Telemetry.Proofs.Intake.Consistency

/-!
# What was taken in and can be sent

The buckets of a project that leave after any run have a text exactly if all of their tag values are
UTF-8, and the next relay reads exactly those of them back whose numbers are finite
(`flush_sendable_iff`).  Neither is promised: the tags of a line are any bytes, and a sum of finite
numbers can be infinite, so that one line costs a whole batch its text, and two lines a bucket.
-/

namespace Telemetry

namespace Json

open Bytes

/-- A double is written as null exactly if it is not finite. -/
theorem renderNumber_eq_null_iff {x : Float} :
    renderNumber (.float x) = ascii "null" ↔ Binary64.isFinite x = false := by
  have hread : readNumber (.float x) = .null ↔ Binary64.isFinite x = false := by
    rw [readNumber]
    split <;> simp [*]
  rw [← hread]
  rcases renderNumber_cases (.float x) with ⟨htext, hnull⟩ | ⟨b, t, n, htext, hstart, hnumber, -⟩
  · exact iff_of_true htext hnull
  · apply iff_of_false
    · intro hnull
      rw [htext] at hnull
      have hb : b ≠ byte 'n' := hstart.ne (by decide) (by decide)
      exact hb (List.cons.inj hnull).1
    · rw [hnumber]
      exact Json.noConfusion

end Json

theorem Value.finite_iff_no_null {v : Value Float} :
    v.Finite ↔ ∀ x ∈ v.numbers, Json.renderNumber (.float x) ≠ ascii "null" := by
  apply forall₂_congr
  intro x _
  rw [Ne, Json.renderNumber_eq_null_iff, Bool.not_eq_false]

namespace Intake

open Wire

/-- The stored buckets after a run are canonical, and so are those that leave. -/
theorem drain_canonical (settings : Aggregator.Settings) (shards : Nat) (actions : List Action)
    (leaves : Aggregator.Stored Float → Bool) :
    ∀ b ∈ ((actAll { aggregator := .empty settings shards } actions).aggregator.drain leaves).1,
      b.Canonical := by
  intro b hb
  have hsound : Sound (actAll { aggregator := .empty settings shards } actions) := by
    apply Sound.actAll
    exact ⟨.empty settings shards, Aggregator.holds_empty settings shards, rfl, List.forall_mem_nil _⟩
  exact (hsound.holds.drained leaves b hb).1

/-- **What leaves can be sent exactly if its tags are UTF-8, and read exactly where its numbers are
finite**, which is where none of them was written as null. -/
theorem flush_sendable_iff (settings : Aggregator.Settings) (shards : Nat) (actions : List Action)
    (leaves : Aggregator.Stored Float → Bool) (scope : Scope) (withScope : Bool) :
    let s := actAll { aggregator := .empty settings shards } actions
    let batch := (s.aggregator.drain leaves).1.filter fun b => b.key.scope = scope
    ((write? withScope batch).isSome ↔ ∀ b ∈ batch, b.key.tags.Textual) ∧
      ∀ text, write? withScope batch = some text → ∃ results, readAll? text scope = some results ∧
        List.Forall₂ (fun b r => (r = .ok b ↔ b.value.Finite) ∧
          (b.value.Finite ↔ ∀ x ∈ b.value.numbers, Json.renderNumber (.float x) ≠ ascii "null"))
          batch results := by
  intro s batch
  have hcanonical : ∀ b ∈ batch, b.Canonical := by
    intro b hb
    exact drain_canonical settings shards actions leaves b (List.mem_of_mem_filter hb)
  have hscope : ∀ b ∈ batch, b.receivedFor scope = b := by
    intro b hb
    have hkey : b.key.scope = scope := of_decide_eq_true (List.mem_filter.mp hb).2
    rw [← hkey]
    rfl
  refine ⟨?_, ?_⟩
  · rw [Option.isSome_iff_exists]
    constructor
    · rintro ⟨text, htext⟩
      exact ((write?_eq_some_iff hcanonical).mp htext).1
    · intro htextual
      exact ⟨_, (write?_eq_some_iff hcanonical).mpr ⟨htextual, rfl⟩⟩
  · intro text htext
    refine ⟨_, readAll?_of_write? htext scope, ?_⟩
    rw [List.forall₂_map_right_iff, List.forall₂_same]
    intro b hb
    refine ⟨?_, Value.finite_iff_no_null⟩
    rw [readBucket_bucketJson (hcanonical b hb), hscope b hb]
    exact and_iff_left rfl

/-- Both can fail.  A line whose tag is no UTF-8 is merged, and no bucket of its project has a text; two
large counters are merged, and their sum is written but not read. -/
theorem flush_not_promised :
    let taken (payload : Bytes) : Intake :=
      actAll { aggregator := .empty {} 1 } [.takeIn .running (.still 1700000000)
        ⟨42, none, 1700000000, [⟨.metrics, payload, false⟩]⟩ ⟨⟨1, 42⟩, false, {}⟩]
    let broken := taken (ascii "a:1|s\nb:1|s|#t:" ++ [0xff])
    let large := taken (ascii "a:1e308|c\na:1e308|c")
    (broken.log.recent = [] ∧ broken.aggregator.drainAll.1.length = 2 ∧
      write? false broken.aggregator.drainAll.1 = none) ∧
    large.log.recent = [] ∧ ((write? false large.aggregator.drainAll.1).bind fun text =>
      (readAll? text ⟨1, 42⟩).map faults) = some [.counterNotNumber] := by
  decide +kernel

end Intake

end Telemetry

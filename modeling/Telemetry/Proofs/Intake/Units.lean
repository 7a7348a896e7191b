import Telemetry.Proofs.Bytes.Cutting
import Telemetry.Proofs.Intake.Fates
import Telemetry.Proofs.Intake.Totality

/-!
# Units of a submission

A submission is read unit by unit: lines by newlines (`readAll_append`), batches by the entries of a list
(`readBatch_of_array`).  A line keeps its number, which is that of the newlines before it (`mem_readAll_iff`),
also where lines are counted while they are read (`Tally.read_eq`).  What one unit yields is a matter of that
unit alone.
-/

namespace Telemetry

open Bytes

namespace Line

variable {payload line : Bytes} {lines : List Bytes} {now : UInt64} {n : Nat}

/-! ## Blank lines -/

/-- A line of blanks alone. -/
def Blank (line : Bytes) : Prop := ∀ b ∈ line, isBlank b = true

theorem isEmpty_trim_iff : (trim isBlank line).isEmpty = true ↔ Blank line := by
  rw [List.isEmpty_iff, trim_eq_nil_iff]
  rfl

/-! ## Numbered lines -/

/-- What lines yield of which the first has a given number. -/
def readFrom (n : Nat) (lines : List Bytes) (now : UInt64) : List (Nat × Except Fault (Point Float)) :=
  ((lines.zipIdx n).filter fun (line, _) => !(trim isBlank line).isEmpty).map fun (line, n) =>
    (n, parse line now)

theorem readAll_eq (payload : Bytes) (now : UInt64) :
    readAll payload now = readFrom 1 (split (byte '\n') payload) now := rfl

theorem readFrom_cons (n : Nat) (line : Bytes) (lines : List Bytes) (now : UInt64) :
    readFrom n (line :: lines) now = (if (trim isBlank line).isEmpty then [] else [(n, parse line now)]) ++
      readFrom (n + 1) lines now := by
  unfold readFrom
  rw [List.zipIdx_cons, List.filter_cons]
  cases h : (trim isBlank line).isEmpty <;> simp [h]

theorem readFrom_append (n : Nat) (lines more : List Bytes) (now : UInt64) :
    readFrom n (lines ++ more) now = readFrom n lines now ++ readFrom (n + lines.length) more now := by
  unfold readFrom
  rw [List.zipIdx_append, List.filter_append, List.map_append]

/-- A greater first number is added to all of them. -/
theorem readFrom_add (n k : Nat) (lines : List Bytes) (now : UInt64) :
    readFrom (n + k) lines now = (readFrom n lines now).map fun e => (e.1 + k, e.2) := by
  induction lines generalizing n with
  | nil => rfl
  | cons line rest ih =>
    rw [readFrom_cons, readFrom_cons, Nat.add_right_comm, ih, List.map_append]
    cases (trim isBlank line).isEmpty <;> rfl

/-- **What stands before and after a newline is read apart.** -/
theorem readAll_append (a b : Bytes) (now : UInt64) : readAll (a ++ byte '\n' :: b) now =
    readAll a now ++ (readAll b now).map fun e => (e.1 + (a.count (byte '\n') + 1), e.2) := by
  rw [readAll_eq, readAll_eq, readAll_eq, split_append, readFrom_append, length_split, readFrom_add]

theorem points_append (a b : Bytes) (now : UInt64) :
    points (a ++ byte '\n' :: b) now = points a now ++ points b now := by
  unfold points
  rw [readAll_append, List.filterMap_append, List.filterMap_map]
  rfl

/-- The fault at a line, with its number. -/
def fault? : Nat × Except Fault (Point Float) → Option (Nat × Fault)
  | (_, .ok _) => none
  | (n, .error fault) => some (n, fault)

theorem faults_eq (payload : Bytes) (now : UInt64) :
    faults payload now = (readAll payload now).filterMap fault? := by
  unfold faults
  congr 1
  funext e
  obtain ⟨n, r⟩ := e
  cases r <;> rfl

theorem faults_append (a b : Bytes) (now : UInt64) : faults (a ++ byte '\n' :: b) now =
    faults a now ++ (faults b now).map fun e => (e.1 + (a.count (byte '\n') + 1), e.2) := by
  rw [faults_eq, faults_eq, faults_eq, readAll_append, List.filterMap_append, List.filterMap_map,
    List.map_filterMap]
  congr 2
  funext e
  obtain ⟨n, r⟩ := e
  cases r <;> rfl

/-- A payload has a line with a number, counted from 1. -/
def LineAt (payload : Bytes) (n : Nat) (line : Bytes) : Prop :=
  ∃ i, n = i + 1 ∧ PieceAt (byte '\n') payload i line

/-- **The lines that are not blank yield what they are read as**, under their numbers. -/
theorem mem_readAll_iff {r : Except Fault (Point Float)} : (n, r) ∈ readAll payload now ↔
    ∃ line, LineAt payload n line ∧ ¬ Blank line ∧ parse line now = r := by
  have hline : ∀ line, (line, n) ∈ (split (byte '\n') payload).zipIdx 1 ↔ LineAt payload n line := by
    intro line
    rw [List.mem_zipIdx_iff_le_and_getElem?_sub, getElem?_split_eq_some_iff]
    constructor
    · rintro ⟨hle, hpiece⟩
      exact ⟨n - 1, (Nat.sub_add_cancel hle).symm, hpiece⟩
    · rintro ⟨i, rfl, hpiece⟩
      exact ⟨Nat.le_add_left 1 i, hpiece⟩
  have hblank : ∀ line, (!(trim isBlank line).isEmpty) = true ↔ ¬ Blank line := by
    intro line
    rw [Bool.not_eq_true', ← Bool.not_eq_true, isEmpty_trim_iff]
  simp only [readAll, List.mem_map, List.mem_filter, Prod.exists, Prod.mk.injEq, hblank]
  constructor
  · rintro ⟨line, _, ⟨hmem, hnot⟩, rfl, hr⟩
    exact ⟨line, (hline line).mp hmem, hnot, hr⟩
  · rintro ⟨line, hat, hnot, hr⟩
    exact ⟨line, n, ⟨(hline line).mpr hat, hnot⟩, rfl, hr⟩

/-- No number comes twice. -/
theorem pairwise_readAll (payload : Bytes) (now : UInt64) :
    (readAll payload now).Pairwise fun e e' => e.1 < e'.1 := by
  have hnumbers : ((split (byte '\n') payload).zipIdx 1).Pairwise fun e e' => e.2 < e'.2 := by
    rw [← List.pairwise_map (f := Prod.snd), List.zipIdx_map_snd]
    exact List.pairwise_lt_range'
  exact List.pairwise_map.mpr (hnumbers.sublist List.filter_sublist)

/-! ## Counting while reading -/

/-- What was found in the lines so far, and how many these are. -/
structure Tally where
  lines : Nat := 0
  points : List (Point Float) := []
  faults : List (Nat × Fault) := []

namespace Tally

/-- Takes the next line: it is counted, and unless it is blank it has a point or a fault. -/
def take (now : UInt64) (t : Tally) (line : Bytes) : Tally :=
  let n := t.lines + 1
  if (trim isBlank line).isEmpty then { t with lines := n }
  else match parse line now with
    | .ok p => { t with lines := n, points := t.points ++ [p] }
    | .error fault => { t with lines := n, faults := t.faults ++ [(n, fault)] }

def read (payload : Bytes) (now : UInt64) : Tally := (split (byte '\n') payload).foldl (take now) {}

theorem take_eq (now : UInt64) (t : Tally) (line : Bytes) : t.take now line =
    ⟨t.lines + 1, t.points ++ (readFrom (t.lines + 1) [line] now).filterMap fun e => e.2.toOption,
      t.faults ++ (readFrom (t.lines + 1) [line] now).filterMap fault?⟩ := by
  rw [readFrom_cons, take]
  cases (trim isBlank line).isEmpty with
  | true => simp [readFrom]
  | false => cases h : parse line now <;> simp [readFrom, fault?, Except.toOption]

theorem foldl_take (now : UInt64) (t : Tally) (lines : List Bytes) : lines.foldl (take now) t =
    ⟨t.lines + lines.length, t.points ++ (readFrom (t.lines + 1) lines now).filterMap fun e => e.2.toOption,
      t.faults ++ (readFrom (t.lines + 1) lines now).filterMap fault?⟩ := by
  induction lines generalizing t with
  | nil => simp [readFrom]
  | cons line rest ih =>
    have hfrom : readFrom (t.lines + 1) (line :: rest) now =
        readFrom (t.lines + 1) [line] now ++ readFrom (t.lines + 1 + 1) rest now :=
      readFrom_append (t.lines + 1) [line] rest now
    rw [List.foldl_cons, ih, take_eq, hfrom, List.filterMap_append, List.filterMap_append, List.length_cons]
    simp only [List.append_assoc, Nat.add_assoc, Nat.add_comm 1]

/-- **Counting while reading gives each line its number.** -/
theorem read_eq (payload : Bytes) (now : UInt64) :
    read payload now = ⟨payload.count (byte '\n') + 1, Line.points payload now, Line.faults payload now⟩ := by
  rw [read, foldl_take, length_split, faults_eq]
  simp only [Nat.zero_add, List.nil_append]
  rfl

end Tally

end Line

/-! ## Entries of a batch -/

namespace Wire

variable {payload : Bytes} {items : List Json}

/-- Why an entry is refused, if it is. -/
def refusal? (scope : Scope) (j : Json) : Option Fault :=
  match readBucket scope j with
  | .ok _ => none
  | .error fault => some fault

theorem readAll?_of_array (scope : Scope) (h : Json.parse? payload = some (.array items)) :
    readAll? payload scope = some (items.map (readBucket scope)) := by
  rw [readAll?, h]
  rfl

theorem buckets_map (scope : Scope) (items : List Json) : buckets (items.map (readBucket scope)) =
    items.filterMap fun j => (readBucket scope j).toOption := by
  rw [buckets, List.filterMap_map]
  rfl

theorem faults_map (scope : Scope) (items : List Json) :
    faults (items.map (readBucket scope)) = items.filterMap (refusal? scope) := by
  rw [faults, List.filterMap_map]
  congr 1

/-- **A list is read entry by entry**, and what an entry raises is caught there. -/
theorem readBatch_of_array (scope : Scope) (h : Json.parse? payload = some (.array items)) :
    Raising.readBatch payload scope = .ok (items.filterMap fun j => (readBucket scope j).toOption,
      (items.filterMap (refusal? scope)).map Fault.message) := by
  rw [Raising.readBatch_eq, readAll?_of_array scope h]
  dsimp only
  rw [buckets_map, faults_map]

/-- Another entry in one place changes the result in that place alone. -/
theorem readAll?_of_set {other : Bytes} {k : Nat} {j : Json} (scope : Scope)
    (h : Json.parse? other = some (.array (items.set k j))) :
    readAll? other scope = some ((items.map (readBucket scope)).set k (readBucket scope j)) := by
  rw [readAll?_of_array scope h, List.map_set]

end Wire

/-- **The units of a submission are read independently.**  Payloads that a newline joins have the points and
the faults of both, these with the numbers of their lines; a line that is not blank has a point or a fault
under its number.  The entries of a list have what they are read as, one by one, and another entry in one
place changes nothing elsewhere. -/
theorem units_read_apart :
    (∀ (a b : Bytes) (now : UInt64),
      Line.points (a ++ byte '\n' :: b) now = Line.points a now ++ Line.points b now ∧
      Line.faults (a ++ byte '\n' :: b) now = Line.faults a now ++
        (Line.faults b now).map fun e => (e.1 + (a.count (byte '\n') + 1), e.2)) ∧
    (∀ (payload : Bytes) (now : UInt64),
      Line.Tally.read payload now =
        ⟨payload.count (byte '\n') + 1, Line.points payload now, Line.faults payload now⟩ ∧
      Line.points payload now = (Line.readAll payload now).filterMap (fun e => e.2.toOption) ∧
      Line.faults payload now = (Line.readAll payload now).filterMap Line.fault? ∧
      (Line.faults payload now).length + (Line.points payload now).length = (Line.lines payload).length ∧
      ((Line.readAll payload now).Pairwise fun e e' => e.1 < e'.1) ∧
      ∀ n r, (n, r) ∈ Line.readAll payload now ↔
        ∃ line, Line.LineAt payload n line ∧ ¬ Line.Blank line ∧ Line.parse line now = r) ∧
    ∀ (payload : Bytes) (scope : Scope) (items : List Json), Json.parse? payload = some (.array items) →
      Raising.readBatch payload scope = .ok
        (items.filterMap fun j => (Wire.readBucket scope j).toOption,
          (items.filterMap (Wire.refusal? scope)).map Wire.Fault.message) ∧
      Wire.readAll? payload scope = some (items.map (Wire.readBucket scope)) ∧
      ∀ other k j, Json.parse? other = some (.array (items.set k j)) →
        Wire.readAll? other scope =
          some ((items.map (Wire.readBucket scope)).set k (Wire.readBucket scope j)) := by
  refine ⟨fun a b now => ⟨Line.points_append a b now, Line.faults_append a b now⟩, fun payload now => ?_,
    fun payload scope items h => ?_⟩
  · exact ⟨Line.Tally.read_eq payload now, rfl, Line.faults_eq payload now,
      Line.length_faults_add_points payload now, Line.pairwise_readAll payload now,
      fun n r => Line.mem_readAll_iff⟩
  · exact ⟨Wire.readBatch_of_array scope h, Wire.readAll?_of_array scope h,
      fun other k j => Wire.readAll?_of_set scope⟩

/-- A line that is no metric among others, and an entry that is no bucket among others. -/
theorem units_read_apart_malformed :
    let a := ascii "transactions/foo:42|c\r\nthis is not a metric"
    let b := ascii "\ntransactions/bar:17|c\nalso none\n"
    let entry : Json := .object [(ascii "name", .string (ascii "c:custom/clicks@none")),
      (ascii "timestamp", .number (.unsigned 10)), (ascii "value", .number (.unsigned 2))]
    (Line.faults (a ++ byte '\n' :: b) 7).map Prod.fst = [2, 5] ∧
    (Line.points (a ++ byte '\n' :: b) 7).map Point.name =
      [ascii "c:transactions/foo@none", ascii "c:transactions/bar@none"] ∧
    (∃ found errors, Raising.readBatch (Json.array [.null, entry]).render ⟨1, 2⟩ = .ok (found, errors) ∧
      found.length = 1 ∧ errors = [ascii "bucket must be an object"]) ∧
    (Wire.readAll? (Json.array [entry, entry]).render ⟨1, 2⟩).map List.length = some 2 := by
  intro a b entry
  obtain ⟨hlines, -, hentries⟩ := units_read_apart
  have hnone : Json.parse? (Json.array [.null, entry]).render = some (.array [.null, entry]) :=
    Json.parse?_render (by decide)
  have hboth : Json.parse? (Json.array [entry, entry]).render = some (.array ([.null, entry].set 0 entry)) :=
    Json.parse?_render (by decide)
  obtain ⟨hbatch, -, hset⟩ := hentries _ ⟨1, 2⟩ _ hnone
  refine ⟨?_, ?_, ⟨_, _, hbatch, ?_, ?_⟩, ?_⟩
  · rw [(hlines a b 7).2]
    decide +kernel
  · rw [(hlines a b 7).1]
    decide +kernel
  · decide +kernel
  · decide +kernel
  · rw [hset _ 0 entry hboth]
    rfl

end Telemetry

import Telemetry.Proofs.Intake.Units
import Telemetry.Proofs.Metric.Grammar

/-!
# Payloads that are cut

Of a payload that is too long only the front is there.  It has the lines in front of the place of
the cut, and the beginning of the line at that place, which is read as if it were a line (`Cut`).
Nothing tells such a payload from a whole one: what is done with it is what the whole one asks for
exactly if the line that was cut comes to the same and only blank lines are lost
(`effects_take_iff`), and a point that no line submits can come of a cut (`exists_cut_point_iff`).
-/

namespace Telemetry

open Bytes

/-! ## What lines come to -/

namespace Line

variable {line start more : Bytes} {now : UInt64}

/-- What is made of a line: nothing of a blank one, else a point or the message of a fault. -/
def outcome (now : UInt64) (line : Bytes) : Option (Except Bytes (Point Float)) :=
  if (trim isBlank line).isEmpty then none else some ((parse line now).mapError Fault.message)

theorem outcome_eq_none_iff : outcome now line = none ↔ Blank line := by
  rw [outcome, ← isEmpty_trim_iff]
  split <;> simp [*]

theorem readFrom_singleton (n : Nat) (line : Bytes) (now : UInt64) : readFrom n [line] now =
    if (trim isBlank line).isEmpty then [] else [(n, parse line now)] := by
  rw [readFrom_cons]
  exact List.append_nil _

theorem readFrom_eq_nil_iff (n : Nat) (lines : List Bytes) (now : UInt64) :
    readFrom n lines now = [] ↔ ∀ line ∈ lines, Blank line := by
  induction lines generalizing n with
  | nil => simp [readFrom]
  | cons line rest ih =>
    rw [readFrom_cons, List.append_eq_nil_iff, ih, List.forall_mem_cons, ← isEmpty_trim_iff]
    split <;> simp [*]

/-- Whatever stands behind it, a line that is not blank stays so. -/
theorem Blank.of_append (h : Blank (start ++ more)) : Blank start := fun b hb =>
  h b (List.mem_append_left _ hb)

/-! ## Lines that submit a point -/

section Points

variable {p : Point Float} {other payload : Bytes}

/-- The blanks around a line do not matter. -/
theorem parse_of_trim (h : trim isBlank line = trim isBlank other) : parse line now = parse other now := by
  unfold parse
  rw [h]

theorem Blank.parse_ne_ok (h : Blank line) : parse line now ≠ .ok p := by
  have htrim : trim isBlank line = trim isBlank [] := trim_eq_nil_iff.mpr h
  rw [parse_of_trim htrim]
  exact nofun

theorem mem_points_iff : p ∈ points payload now ↔
    ∃ line ∈ split (byte '\n') payload, parse line now = .ok p := by
  constructor
  · intro hp
    obtain ⟨⟨n, r⟩, hr, hp⟩ := List.mem_filterMap.mp hp
    obtain ⟨line, ⟨i, -, hpiece⟩, -, rfl⟩ := mem_readAll_iff.mp hr
    exact ⟨line, List.mem_of_getElem? hpiece.getElem?_split, toOption_eq_some.mp hp⟩
  · rintro ⟨line, hline, hp⟩
    obtain ⟨i, hi⟩ := List.mem_iff_getElem?.mp hline
    have hread : (i + 1, .ok p) ∈ readAll payload now := mem_readAll_iff.mpr
      ⟨line, ⟨i, rfl, getElem?_split_eq_some_iff.mp hi⟩, fun hblank => hblank.parse_ne_ok hp, hp⟩
    exact List.mem_filterMap.mpr ⟨_, hread, rfl⟩

theorem Accepted.ne_nil {k : Kind} {text : Bytes} (h : Accepted k text) : text ≠ [] := by
  rintro rfl
  cases k
  case set => exact h rfl
  all_goals
    obtain ⟨x, hx⟩ := h
    cases hx

/-- A line has at least a name, a colon, a value, a bar and a kind. -/
theorem five_le_length (h : parse line now = .ok p) : 5 ≤ line.length := by
  obtain ⟨s, hwf, -, ⟨⟨before, after, rfl, -, -⟩, -, -⟩, -⟩ := exists_spelling h
  obtain ⟨v, values, hvalues⟩ := List.exists_cons_of_ne_nil hwf.some_value
  have hname : 0 < s.name.length := by
    apply List.length_pos_iff.mpr
    intro hnil
    have hvalid := hwf.name
    rw [hnil] at hvalid
    cases hvalid
  have hv : 0 < v.length := List.length_pos_iff.mpr
    (hwf.values v (hvalues ▸ List.mem_cons_self)).2.2.ne_nil
  simp only [Spelling.text, Spelling.head, Spelling.fullName, hvalues, List.flatMap_cons, List.length_append,
    List.length_cons]
  omega

end Points

/-! ## A payload that is cut -/

/-- A payload is cut in a line: whole lines stand before, others behind are lost. -/
structure Cut (payload : Bytes) (size : Nat) (whole : List Bytes) (start more : Bytes)
    (lost : List Bytes) : Prop where
  lines : split (byte '\n') payload = whole ++ (start ++ more) :: lost
  kept : split (byte '\n') (payload.take size) = whole ++ [start]
  missing : split (byte '\n') (payload.drop size) = more :: lost

theorem exists_cut (payload : Bytes) (size : Nat) :
    ∃ whole start more lost, Cut payload size whole start more lost := by
  obtain ⟨whole, start, hkept⟩ : ∃ whole start, split (byte '\n') (payload.take size) = whole ++ [start] :=
    ⟨_, _, (List.dropLast_append_getLast (split_ne_nil _ _)).symm⟩
  obtain ⟨more, lost, hmissing⟩ := List.exists_cons_of_ne_nil (split_ne_nil (byte '\n') (payload.drop size))
  refine ⟨whole, start, more, lost, ?_, hkept, hmissing⟩
  have hlines := split_append_of hkept hmissing
  rwa [List.take_append_drop] at hlines

namespace Cut

variable {payload : Bytes} {size : Nat} {whole lost : List Bytes}

/-- Without a newline there is one line only, and that is cut. -/
theorem of_not_mem (h : byte '\n' ∉ payload) (size : Nat) :
    Cut payload size [] (payload.take size) (payload.drop size) [] where
  lines := by
    rw [List.take_append_drop]
    exact split_of_not_mem h
  kept := split_of_not_mem fun hmem => h (List.mem_of_mem_take hmem)
  missing := split_of_not_mem fun hmem => h (List.mem_of_mem_drop hmem)

variable (h : Cut payload size whole start more lost)
include h

/-- Nothing is missing from a payload of at most that size. -/
theorem fits_iff : payload.length ≤ size ↔ more = [] ∧ lost = [] := by
  rw [← List.drop_eq_nil_iff, ← List.cons_eq_cons (a := more) (b := []), ← h.missing]
  constructor
  · intro hnone
    rw [hnone]
    rfl
  · intro hpieces
    obtain ⟨-, hjoined, -⟩ := split_eq_iff.mp hpieces
    exact hjoined.symm

theorem length_start_le : start.length ≤ size := by
  obtain ⟨-, before, after, hkept, -⟩ := getElem?_split_eq_some_iff.mp
    (h.kept ▸ List.getElem?_concat_length :
      (split (byte '\n') (payload.take size))[whole.length]? = some start)
  calc
    start.length ≤ (before ++ start ++ after).length := by
      rw [List.length_append, List.length_append]
      omega
    _ = (payload.take size).length := by rw [hkept]
    _ ≤ size := List.length_take_le size payload

theorem mem_points_take_iff {p : Point Float} : p ∈ points (payload.take size) now ↔
    ∃ line ∈ whole ++ [start], parse line now = .ok p := by
  rw [mem_points_iff, h.kept]

theorem mem_split_of_mem_whole (hline : line ∈ whole) : line ∈ split (byte '\n') payload := by
  rw [h.lines]
  exact List.mem_append_left _ hline

theorem readAll_eq (now : UInt64) : readAll payload now = readFrom 1 whole now ++
    (readFrom (1 + whole.length) [start ++ more] now ++ readFrom (1 + whole.length + 1) lost now) := by
  rw [Line.readAll_eq, h.lines, readFrom_append]
  exact congrArg _ (readFrom_append _ [start ++ more] lost now)

theorem readAll_take_eq (now : UInt64) : readAll (payload.take size) now =
    readFrom 1 whole now ++ readFrom (1 + whole.length) [start] now := by
  rw [Line.readAll_eq, h.kept, readFrom_append]

end Cut

/-! ## Points that no line submits -/

/-- The shortest line. -/
def shortest : Spelling where
  name := ascii "a"
  values := [ascii "1"]
  kind := .counter

theorem shortest_wf : shortest.WF where
  space := nofun
  name := by decide
  unit := nofun
  some_value := List.cons_ne_nil _ _
  values := by
    have hnumber : (number (ascii "1")).toOption.isSome = true := by decide +kernel
    obtain ⟨x, hx⟩ := Option.isSome_iff_exists.mp hnumber
    intro v hv
    obtain rfl := List.mem_singleton.mp hv
    exact ⟨by decide, by decide, x, toOption_eq_some.mp hx⟩
  sections := List.forall_mem_nil _

/-- A text behind spaces. -/
def indent (k : Nat) (body : Bytes) : Bytes := List.replicate k (byte ' ') ++ body

theorem length_indent (k : Nat) (body : Bytes) : (indent k body).length = k + body.length := by
  rw [indent, List.length_append, List.length_replicate]

theorem take_indent (k : Nat) (body more : Bytes) :
    (indent k (body ++ more)).take (k + body.length) = indent k body := by
  rw [indent, ← List.append_assoc]
  exact List.take_left' (length_indent k body)

theorem blank_spaces (k : Nat) : Blank (List.replicate k (byte ' ')) := by
  intro b hb
  rw [List.eq_of_mem_replicate hb]
  rfl

theorem trimmed_indent {body : Bytes} (k : Nat) (h : trim isBlank body = body) :
    Trimmed isBlank (indent k body) body where
  around := ⟨_, [], (List.append_nil _).symm, blank_spaces k, List.forall_mem_nil _⟩
  first := (trim_eq_iff.mp h).first
  last := (trim_eq_iff.mp h).last

theorem newline_not_mem_indent {body : Bytes} (k : Nat) (h : byte '\n' ∉ body) :
    byte '\n' ∉ indent k body := by
  intro hmem
  rcases List.mem_append.mp hmem with hspace | hbody
  · exact absurd (List.eq_of_mem_replicate hspace) (by decide)
  · exact h hbody

/-- The shortest line submits a point.  With one byte more it is no line. -/
theorem parse_indent (k : Nat) (now : UInt64) : (∃ p, parse (indent k shortest.text) now = .ok p) ∧
    parse (indent k (shortest.text ++ [byte 'x'])) now = .error (.invalidKind (ascii "cx")) := by
  constructor
  · obtain ⟨p, hp⟩ := Spelling.exists_means shortest_wf now
    exact ⟨p, parse_spelled shortest_wf (fun _ => by decide) (trimmed_indent k rfl) hp⟩
  · have htrim : trim isBlank (indent k (shortest.text ++ [byte 'x'])) =
        trim isBlank (shortest.text ++ [byte 'x']) := trim_eq_iff.mpr (trimmed_indent k rfl)
    rw [parse_of_trim htrim]
    rfl

/-- The shortest line with one byte more submits nothing, but what is left of it without that byte does. -/
theorem exists_cut_point (k : Nat) (now : UInt64) :
    ∃ p ∈ points ((indent k (shortest.text ++ [byte 'x'])).take (k + 5)) now,
      ∀ line ∈ split (byte '\n') (indent k (shortest.text ++ [byte 'x'])), parse line now ≠ .ok p := by
  obtain ⟨⟨p, hp⟩, hfault⟩ := parse_indent k now
  have hkept : (indent k (shortest.text ++ [byte 'x'])).take (k + 5) = indent k shortest.text :=
    take_indent k shortest.text [byte 'x']
  refine ⟨p, ?_, ?_⟩
  · rw [hkept, mem_points_iff, split_of_not_mem (newline_not_mem_indent k (by decide))]
    exact ⟨_, List.mem_singleton_self _, hp⟩
  · rw [split_of_not_mem (newline_not_mem_indent k (by decide))]
    intro line hline
    rw [List.mem_singleton.mp hline, hfault]
    exact nofun

/-- **A cut can make a point that no line submits** exactly if it leaves room for a line but not for all. -/
theorem exists_cut_point_iff {size longest : Nat} : (∃ payload : Bytes, payload.length ≤ longest ∧
      ∃ p ∈ points (payload.take size) now, ∀ line ∈ split (byte '\n') payload, parse line now ≠ .ok p) ↔
    5 ≤ size ∧ size < longest := by
  constructor
  · rintro ⟨payload, hlongest, p, hp, hnone⟩
    obtain ⟨whole, start, more, lost, hcut⟩ := exists_cut payload size
    obtain ⟨line, hline, hparse⟩ := hcut.mem_points_take_iff.mp hp
    -- A line in front of the cut is one of the payload, so the point can only be that of the line
    -- that was cut.
    have hstart : line = start := by
      rcases List.mem_append.mp hline with hwhole | hstart
      · exact absurd hparse (hnone line (hcut.mem_split_of_mem_whole hwhole))
      · exact List.mem_singleton.mp hstart
    refine ⟨(hstart ▸ five_le_length hparse).trans hcut.length_start_le, ?_⟩
    by_contra hfits
    rw [List.take_of_length_le (hlongest.trans (Nat.le_of_not_lt hfits))] at hp
    obtain ⟨line, hline, hparse⟩ := mem_points_iff.mp hp
    exact hnone line hline hparse
  · rintro ⟨hfive, hlt⟩
    obtain ⟨k, rfl⟩ := Nat.exists_eq_add_of_le' hfive
    refine ⟨indent k (shortest.text ++ [byte 'x']), ?_, exists_cut_point k now⟩
    rw [length_indent]
    exact hlt

end Line

/-! ## What the intake does with lines -/

namespace Intake

open Line (outcome Cut)

variable {clock : Nat → UInt64} {now : UInt64} {scope : Scope} {size : Nat} {start more payload : Bytes}

/-- The drop of a faulty line. -/
def lineDrop? (scope : Scope) : Nat × Except Line.Fault (Point Float) → Option Drop
  | (_, .ok _) => none
  | (n, .error fault) => some ⟨.invalidMetric, .metric, scope, 1, lineDetail n fault⟩

/-- The drops and the points of some lines. -/
def yield (scope : Scope) (rs : List (Nat × Except Line.Fault (Point Float))) :
    List Drop × List (Point Float) :=
  (rs.filterMap (lineDrop? scope), rs.filterMap fun e => e.2.toOption)

theorem yield_append (rs more : List (Nat × Except Line.Fault (Point Float))) :
    yield scope (rs ++ more) =
      ((yield scope rs).1 ++ (yield scope more).1, (yield scope rs).2 ++ (yield scope more).2) := by
  rw [yield, List.filterMap_append, List.filterMap_append]
  rfl

theorem yield_eq_nil_iff (scope : Scope) {rs : List (Nat × Except Line.Fault (Point Float))} :
    yield scope rs = ([], []) ↔ rs = [] := by
  constructor
  · intro h
    obtain ⟨hdrops, hpoints⟩ := Prod.mk.inj h
    refine List.eq_nil_iff_forall_not_mem.mpr fun e he => ?_
    have hdrop := List.filterMap_eq_nil_iff.mp hdrops e he
    have hpoint := List.filterMap_eq_nil_iff.mp hpoints e he
    obtain ⟨n, r⟩ := e
    cases r with
    | ok p => cases hpoint
    | error fault => cases hdrop
  · rintro rfl
    rfl

theorem metricsEffects_eq (clock : Nat → UInt64) (now : UInt64) (scope : Scope) (payload : Bytes) :
    metricsEffects clock now scope payload =
      (yield scope (Line.readAll payload now)).1.map .record ++
        Effect.submits clock .metric ((yield scope (Line.readAll payload now)).2.map (submission scope)) := by
  rw [metricsEffects, Line.faults_eq, yield, List.map_filterMap, List.map_filterMap]
  congr 2
  funext e
  obtain ⟨n, r⟩ := e
  cases r <;> rfl

/-- The point that an effect submits. -/
def submitted? : Effect → Option (Point Float)
  | .submit _ _ key value => some ⟨key.name, value, key.timestamp, key.tags⟩
  | _ => none

theorem filterMap_metricsEffects (clock : Nat → UInt64) (now : UInt64) (scope : Scope) (payload : Bytes) :
    ((metricsEffects clock now scope payload).filterMap Effect.recorded?,
      (metricsEffects clock now scope payload).filterMap submitted?) =
      yield scope (Line.readAll payload now) := by
  rcases hyield : yield scope (Line.readAll payload now) with ⟨drops, points⟩
  have hrecords : (drops.map Effect.record).filterMap submitted? = [] := by
    rw [List.filterMap_map]
    exact List.filterMap_eq_nil_iff.mpr fun d _ => rfl
  have hpoints : (Effect.submits clock .metric (points.map (submission scope))).filterMap submitted? =
      points := by
    rw [Effect.filterMap_submits_eq (g := fun x => some ⟨x.1.name, x.2, x.1.timestamp, x.1.tags⟩)
      fun _ _ => rfl, List.filterMap_map]
    exact List.filterMap_some
  have hsubmits : (Effect.submits clock .metric (points.map (submission scope))).filterMap
      Effect.recorded? = [] := (filterMap_submits clock .metric _).2.2.2.1
  rw [metricsEffects_eq, hyield, List.filterMap_append, List.filterMap_append, hrecords, hpoints, hsubmits,
    (filterMap_records drops).2.2.2.2, List.append_nil, List.nil_append]

theorem metricsEffects_eq_iff {other : Bytes} :
    metricsEffects clock now scope payload = metricsEffects clock now scope other ↔
      yield scope (Line.readAll payload now) = yield scope (Line.readAll other now) := by
  constructor
  · intro h
    rw [← filterMap_metricsEffects clock, ← filterMap_metricsEffects clock, h]
  · intro h
    rw [metricsEffects_eq, metricsEffects_eq, h]

/-- The drops and the points of one line. -/
def yieldOf (scope : Scope) (n : Nat) : Option (Except Bytes (Point Float)) → List Drop × List (Point Float)
  | none => ([], [])
  | some (.ok p) => ([], [p])
  | some (.error message) => ([⟨.invalidMetric, .metric, scope, 1,
      ascii "line " ++ Bytes.decimal n ++ ascii ": " ++ message⟩], [])

theorem yield_readFrom_singleton (scope : Scope) (n : Nat) (line : Bytes) (now : UInt64) :
    yield scope (Line.readFrom n [line] now) = yieldOf scope n (outcome now line) := by
  rw [Line.readFrom_singleton, outcome]
  split
  · rfl
  · cases Line.parse line now <;> rfl

/-- One line comes to the same as another and some more only if there is nothing more. -/
theorem yieldOf_eq_append_iff {o o' : Option (Except Bytes (Point Float))} {drops : List Drop}
    {points : List (Point Float)} (h : o' = none → o = none) :
    yieldOf scope n o = ((yieldOf scope n o').1 ++ drops, (yieldOf scope n o').2 ++ points) ↔
      o = o' ∧ (drops, points) = ([], []) := by
  cases o' with
  | none =>
    obtain rfl := h rfl
    simp [yieldOf, eq_comm]
  | some r' =>
    cases o with
    | none => cases r' <;> simp [yieldOf]
    | some r => cases r <;> cases r' <;> grind [yieldOf, List.append_cancel_left_eq]

/-- **A cut does not show** exactly if the line that was cut comes to the same and only blank lines
are lost. -/
theorem effects_take_iff {whole lost : List Bytes} (h : Cut payload size whole start more lost) :
    metricsEffects clock now scope (payload.take size) = metricsEffects clock now scope payload ↔
      outcome now start = outcome now (start ++ more) ∧ ∀ line ∈ lost, Line.Blank line := by
  have hblank : outcome now (start ++ more) = none → outcome now start = none := fun hnone =>
    Line.outcome_eq_none_iff.mpr (Line.outcome_eq_none_iff.mp hnone).of_append
  -- The lines in front of the cut are read alike and under the same numbers, so what they yield cancels.
  rw [metricsEffects_eq_iff, h.readAll_eq, h.readAll_take_eq, yield_append, yield_append, yield_append,
    Prod.mk.injEq, List.append_cancel_left_eq, List.append_cancel_left_eq, ← Prod.mk.injEq,
    yield_readFrom_singleton, yield_readFrom_singleton]
  rw [← Line.readFrom_eq_nil_iff (1 + whole.length + 1) lost now, ← yield_eq_nil_iff scope]
  exact yieldOf_eq_append_iff hblank

/-- A byte that is all of its line does not get lost unnoticed. -/
theorem effects_take_indent_ne (size : Nat) (clock : Nat → UInt64) (now : UInt64) (scope : Scope) :
    metricsEffects clock now scope ((Line.indent size [byte 'x']).take size) ≠
      metricsEffects clock now scope (Line.indent size [byte 'x']) := by
  intro heq
  have hcut : Cut (Line.indent size [byte 'x']) size [] _ _ [] :=
    Cut.of_not_mem (Line.newline_not_mem_indent size (by decide)) size
  have htake : (Line.indent size [byte 'x']).take size = List.replicate size (byte ' ') :=
    List.take_left' List.length_replicate
  have hnone : outcome now ((Line.indent size [byte 'x']).take size) = none := by
    rw [htake]
    exact Line.outcome_eq_none_iff.mpr (Line.blank_spaces size)
  obtain ⟨hsame, -⟩ := (effects_take_iff hcut).mp heq
  rw [hnone, List.take_append_drop] at hsame
  have hblank := Line.outcome_eq_none_iff.mp hsame.symm (byte 'x') (by simp [Line.indent])
  exact absurd hblank (by decide)

/-- **No cut of any payload shows** exactly if the longest payload fits. -/
theorem forall_effects_take_iff {longest : Nat} : (∀ payload : Bytes, payload.length ≤ longest →
      metricsEffects clock now scope (payload.take size) = metricsEffects clock now scope payload) ↔
    longest ≤ size := by
  constructor
  · intro h
    by_contra hlt
    refine effects_take_indent_ne size clock now scope (h _ ?_)
    rw [Line.length_indent]
    exact Nat.lt_of_not_le hlt
  · intro hfits payload hlength
    rw [List.take_of_length_le (hlength.trans hfits)]

end Intake

end Telemetry

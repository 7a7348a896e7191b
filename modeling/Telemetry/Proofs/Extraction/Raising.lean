import Telemetry.Proofs.Extraction.NormalForm
import Telemetry.Proofs.Json.Raising
import Telemetry.Proofs.Ordered
import Telemetry.Proofs.Transaction.Measurements

/-!
# Extraction with accesses that raise

Rules, sessions, measurements, breakdowns and transactions as they are read access by access, each asked
for before it is made, and the event rewritten while it is read.  No access raises, and what is read is
what the views of the library answer: a fold over measurements raises at no entry and keeps and counts what
the limit keeps and drops (`cap_eq`), each breakdown finds the event as the one before it has left it
(`Ready.write`, `compute_eq`), and the points are those of the event (`points_eq`).  The one step left to
raise is the text of the normal form (`transaction_eq`).
-/

namespace Telemetry.Raising

/-! ## Rules -/

def field (event : Json) (name : Bytes) : Except Raised (Option Bytes) := do
  match Event.knownFields.lookup name with
  | some key => textIn event [key]
  | none => return none

def reason (f : Filter) (event : Json) : Except Raised (Option Filter.Reason) := do
  if f.releases.isEmpty then return none
  match ← field event (ascii "event.release") with
  | some release => return if f.releases.any fun p => Glob.matchesText p release then some .release else none
  | none => return none

mutual

def holds (event : Json) : Condition → Except Raised Bool
  | .all inner => allHold event inner
  | .any inner => anyHolds event inner
  | .not inner => do return !(← holds event inner)
  | .equals name values ignoreCase => do
    match ← field event name with
    | some text => return values.any fun v => Condition.sameText ignoreCase v text
    | none => return false
  | .glob name patterns => do
    match ← field event name with
    | some text => return patterns.any fun p => Glob.matchesText p text
    | none => return false

def allHold (event : Json) : List Condition → Except Raised Bool
  | [] => return true
  | c :: rest => do
    if ← holds event c then allHold event rest else return false

def anyHolds (event : Json) : List Condition → Except Raised Bool
  | [] => return false
  | c :: rest => do
    if ← holds event c then return true else anyHolds event rest

end

def idOf (event : Json) : Sampling.Subject → Except Raised (Option Bytes)
  | .transaction => textIn event ["event_id"]
  | .trace => textIn event ["contexts", "trace", "trace_id"]

def sample (event : Json) : List Sampling.Rule → Except Raised Sampling.Decision
  | [] => return ⟨true, none⟩
  | r :: rest => do
    if ← holds event r.condition then
      return ⟨Sampling.position (← idOf event r.subject) < r.rate, some r.id⟩
    else sample event rest

section Rules

variable (event : Json)

theorem field_eq (name : Bytes) : field event name = .ok (Event.field? event name) := by
  unfold field Event.field?
  cases Event.knownFields.lookup name with
  | none => rfl
  | some key =>
    rw [Option.bind_some, Json.text?]
    exact (textIn_eq event [key]).trans (by simp [Json.path?])

theorem reason_eq (f : Filter) : reason f event = .ok (f.reason? event) := by
  have hfield : Event.field? event (ascii "event.release") = event.text? "release" := rfl
  unfold reason Filter.reason?
  rw [field_eq, hfield, ok_bind]
  split
  · next hnone =>
    -- no pattern describes anything
    rw [List.isEmpty_iff.mp hnone]
    cases event.text? "release" <;> rfl
  · cases event.text? "release" <;> rfl

mutual

theorem holds_eq : ∀ c : Condition, holds event c = .ok (c.holds event)
  | .all inner => allHold_eq inner
  | .any inner => anyHolds_eq inner
  | .not inner => by
    rw [holds, holds_eq inner, Condition.holds]
    rfl
  | .equals name values ignoreCase => by
    rw [holds, field_eq, Condition.holds, ok_bind]
    cases Event.field? event name <;> rfl
  | .glob name patterns => by
    rw [holds, field_eq, Condition.holds, ok_bind]
    cases Event.field? event name <;> rfl

theorem allHold_eq : ∀ inner : List Condition, allHold event inner = .ok (Condition.allHold event inner)
  | [] => rfl
  | c :: rest => by
    rw [allHold, holds_eq c, ok_bind, Condition.allHold, allHold_eq rest]
    cases c.holds event <;> rfl

theorem anyHolds_eq :
    ∀ inner : List Condition, anyHolds event inner = .ok (Condition.anyHolds event inner)
  | [] => rfl
  | c :: rest => by
    rw [anyHolds, holds_eq c, ok_bind, Condition.anyHolds, anyHolds_eq rest]
    cases c.holds event <;> rfl

end

theorem idOf_eq (subject : Sampling.Subject) : idOf event subject = .ok (Sampling.idOf? event subject) := by
  cases subject with
  | transaction => exact (textIn_eq event _).trans (by simp [Json.path?, Sampling.idOf?, Json.text?])
  | trace => exact textIn_eq event _

theorem sample_eq (s : Sampling) : sample event s.rules = .ok (s.decide event) := by
  obtain ⟨rules⟩ := s
  unfold Sampling.decide
  induction rules with
  | nil => rfl
  | cons r rest ih =>
    rw [sample, holds_eq, ok_bind, List.find?_cons]
    cases r.condition.holds event with
    | true =>
      rw [if_pos rfl, idOf_eq]
      rfl
    | false => exact ih

end Rules

/-! ## Sessions -/

def attributes (session : Json) : Except Raised Json := do
  if has session "attrs" then return ← member session "attrs"
  return .object []

/-- The state of a session: its first report, or the status it gives. -/
def sessionStatus (session : Json) : Except Raised Bytes := do
  if has session "init" then
    let init ← member session "init"
    if is Json.bool? init then
      if ← demand Json.bool? init then return ascii "init"
  return (← textAt session "status").getD (ascii "ok")

/-- The points of a session; `none` if it has no release or no start. -/
def sessionPoints (session : Json) (sdk : Option Bytes) : Except Raised (Option (List (Point Float))) := do
  if !is Json.object? session then return none
  let attributes ← attributes session
  match Session.nonEmpty (← textAt attributes "release") with
  | none => return none
  | some release => match ← timeAt session "started" with
    | none => return none
    | some started =>
      let timestamp := Binary64.toWord started
      let tags : Tags := Ordered.insert (ascii "release") release <|
        Ordered.insertSome (ascii "environment") (← textAt attributes "environment") <|
          Ordered.insertSome (ascii "sdk") sdk []
      let counted : Point Float :=
        ⟨Session.counterName, .counter 1, timestamp,
          Ordered.insert (ascii "session.status") (← sessionStatus session) tags⟩
      let users := match Session.nonEmpty (← textAt session "did") with
        | some user => [⟨Session.userName, .set (Members.ofList [Fnv.hash32 user]), timestamp, tags⟩]
        | none => []
      return some (counted :: users)

section Sessions

variable (session : Json)

theorem attributes_eq : attributes session = .ok (Session.attributes session) := by
  unfold attributes Session.attributes
  cases h : session.get? (ascii "attrs") with
  | none => simp [has_of_get?_none h]
  | some v => simp [has_of_get? h, member_of_get? h]

theorem sessionStatus_eq : sessionStatus session = .ok (Session.status session) := by
  unfold sessionStatus Session.status
  rw [textAt_eq, ok_bind]
  cases h : session.get? (ascii "init") with
  | none => simp [has_of_get?_none h]
  | some init =>
    simp only [has_of_get? h, member_of_get? h, if_true, ok_bind, Option.bind_some]
    cases init with
    | bool b => cases b <;> rfl
    | _ => rfl

theorem sessionPoints_eq (sdk : Option Bytes) :
    sessionPoints session sdk = .ok (Session.points? session sdk) := by
  unfold sessionPoints Session.points?
  cases session with
  | object members =>
    simp only [attributes_eq, textAt_eq, timeAt_eq, sessionStatus_eq, ok_bind]
    cases Session.nonEmpty ((Session.attributes (.object members)).text? "release") with
    | none => rfl
    | some release => cases Event.timeAt? (.object members) "started" <;> rfl
  | _ => rfl

end Sessions

/-! ## Measurements -/

/-- Whether an entry is an object with a number for its value. -/
def numbered (entry : Json) : Except Raised Bool := do
  if is Json.object? entry then
    if has entry "value" then
      return is Json.number? (← member entry "value")
  return false

/-- The number of an entry that is known to have one. -/
def valueOf (entry : Json) : Except Raised Float := do
  demand Json.float? (← member entry "value")

/-- Takes an entry with a number under its folded name, unless there is one already; counts the others. -/
def foldEntry : Json × Nat → Bytes × Json → Except Raised (Json × Nat)
  | (folded, dropped), (name, entry) => do
    if ← numbered entry then
      if (folded.get? (Bytes.lower name)).isSome then return (folded, dropped)
      return (← assign folded (Bytes.lower name) entry, dropped)
    return (folded, dropped + 1)

/-- Takes the entry of a builtin, and any other while there is room; counts what is left. -/
def limitEntry (rules : MeasurementRules) :
    Json × Nat × Nat → Bytes × Json → Except Raised (Json × Nat × Nat)
  | (kept, used, dropped), (name, entry) => do
    if (Measurements.builtin? rules name).isSome then
      return (← assign kept name entry, used, dropped)
    if used < rules.maxCustom.toNat then
      return (← assign kept name entry, used + 1, dropped)
    return (kept, used, dropped + 1)

/-- An event with the measurements it may carry, and how many were dropped. -/
def cap (rules : Option MeasurementRules) (event : Json) : Except Raised (Json × Nat) := do
  if !has event "measurements" then return (event, 0)
  let found ← member event "measurements"
  if !is Json.object? found then return (← remove event "measurements", 0)
  let (folded, dropped) ← (← demand Json.object? found).foldlM foldEntry (.object [], 0)
  match rules with
  | none => return (← assign event (ascii "measurements") folded, dropped)
  | some rules =>
    let (kept, _, dropped) ←
      (← demand Json.object? folded).foldlM (limitEntry rules) (.object [], 0, dropped)
    return (← assign event (ascii "measurements") kept, dropped)

section Measurements

theorem numbered_eq (entry : Json) : numbered entry = .ok (Measurements.number? entry).isSome := by
  unfold numbered Measurements.number?
  cases h : entry.get? (ascii "value") with
  | none => simp [has_of_get?_none h]
  | some v =>
    simp only [is_object_of_get? h, has_of_get? h, member_of_get? h, if_true, ok_bind, Option.bind_some]
    cases v <;> rfl

theorem valueOf_eq {entry : Json} {x : Float} (h : Measurements.number? entry = some x) :
    valueOf entry = .ok x := by
  obtain ⟨v, hv, hx⟩ := Option.bind_eq_some_iff.mp h
  rw [valueOf, member_of_get? hv, ok_bind, demand_of_view hx]

theorem foldlM_foldEntry (members kept : List (Bytes × Json)) (dropped : Nat) :
    members.foldlM foldEntry (.object kept, dropped) =
      .ok (.object (members.foldl (fun kept (name, entry) =>
        if (Measurements.number? entry).isSome then Ordered.insertNew (Bytes.lower name) entry kept
        else kept) kept),
        dropped + members.countP fun (_, entry) => (Measurements.number? entry).isNone) := by
  induction members generalizing kept dropped with
  | nil => rfl
  | cons m rest ih =>
    obtain ⟨name, entry⟩ := m
    have hstep : foldEntry (.object kept, dropped) (name, entry) =
        .ok (if (Measurements.number? entry).isSome then
          (.object (Ordered.insertNew (Bytes.lower name) entry kept), dropped)
        else (.object kept, dropped + 1)) := by
      have hget : (Json.object kept).get? (Bytes.lower name) = Ordered.get? (Bytes.lower name) kept := rfl
      rw [foldEntry, numbered_eq, ok_bind, Ordered.insertNew, hget]
      cases (Measurements.number? entry).isSome with
      | false => rfl
      | true => cases Ordered.get? (Bytes.lower name) kept <;> rfl
    rw [List.foldlM_cons, hstep, ok_bind, List.foldl_cons, List.countP_cons]
    cases hnumber : Measurements.number? entry with
    | none => simp [hnumber, ih, Nat.add_assoc, Nat.add_comm 1]
    | some x => simp [hnumber, ih]

/-- Entries in key order are taken to the end of those that stay. -/
theorem foldlM_limitEntry (rules : MeasurementRules) (entries kept : List (Bytes × Json))
    (h : Ordered.Sorted (kept ++ entries)) (used dropped : Nat) :
    ∃ used', entries.foldlM (limitEntry rules) (.object kept, used, dropped) =
      .ok (.object (kept ++ Measurements.limit rules (rules.maxCustom.toNat - used) entries), used',
        dropped + (entries.length -
          (Measurements.limit rules (rules.maxCustom.toNat - used) entries).length)) := by
  induction entries generalizing kept used dropped with
  | nil => exact ⟨used, by simp [Measurements.limit]⟩
  | cons m rest ih =>
    obtain ⟨name, entry⟩ := m
    -- what is kept comes before what is still to come, so an entry that is taken ends up last
    have hlast : assign (.object kept) name entry = .ok (.object (kept ++ [(name, entry)])) := by
      rw [assign_object, Ordered.insert_eq_append]
      intro e he
      exact (List.pairwise_append.mp h).2.2 e he _ List.mem_cons_self
    have htaken : Ordered.Sorted (kept ++ [(name, entry)] ++ rest) := by
      rwa [List.append_assoc]
    have hleft : Ordered.Sorted (kept ++ rest) :=
      h.sublist ((List.sublist_cons_self _ rest).append_left kept)
    rw [List.foldlM_cons, limitEntry, hlast]
    by_cases hbuiltin : (Measurements.builtin? rules name).isSome = true
    · obtain ⟨used', hrest⟩ := ih _ htaken used dropped
      refine ⟨used', ?_⟩
      rw [if_pos hbuiltin, ok_bind]
      refine hrest.trans ?_
      simp [Measurements.limit, hbuiltin]
    · cases hroom : rules.maxCustom.toNat - used with
      | zero =>
        obtain ⟨used', hrest⟩ := ih _ hleft used (dropped + 1)
        refine ⟨used', ?_⟩
        rw [if_neg hbuiltin, if_neg (by omega)]
        refine hrest.trans ?_
        have hlength := (Measurements.limit_sublist rules 0 rest).length_le
        simp [Measurements.limit, hbuiltin, hroom]
        omega
      | succ room =>
        obtain ⟨used', hrest⟩ := ih _ htaken (used + 1) dropped
        refine ⟨used', ?_⟩
        rw [if_neg hbuiltin, if_pos (by omega)]
        refine hrest.trans ?_
        have hnext : rules.maxCustom.toNat - (used + 1) = room := by omega
        simp [Measurements.limit, hbuiltin, hnext]

theorem cap_eq (rules : Option MeasurementRules) (event : Json) :
    cap rules event = .ok (Measurements.cap rules event) := by
  unfold cap Measurements.cap
  cases hfound : event.get? (ascii "measurements") with
  | none => simp [has_of_get?_none hfound]
  | some found =>
    obtain ⟨members, rfl⟩ := object_of_get? hfound
    simp only [has_of_get? hfound, member_of_get? hfound, remove_of_get? hfound, ok_bind]
    cases found with
    | object entries =>
      have hfold : entries.foldlM foldEntry (.object [], 0) = .ok (.object (Measurements.fold entries),
          0 + entries.countP fun (_, entry) => (Measurements.number? entry).isNone) :=
        foldlM_foldEntry entries [] 0
      rw [Nat.zero_add] at hfold
      simp only [demand_object, is_object, hfold, ok_bind, Bool.not_true, Bool.false_eq_true, if_false]
      cases rules with
      | none =>
        rw [Measurements.dropped, Measurements.keep, Nat.sub_self, Nat.add_zero]
        rfl
      | some rules =>
        obtain ⟨used, hlimit⟩ := foldlM_limitEntry rules (Measurements.fold entries) []
          (Measurements.sorted_fold entries) 0
          (entries.countP fun (_, entry) => (Measurements.number? entry).isNone)
        simp only [hlimit, assign_object, ok_bind]
        rfl
    | _ => rfl

end Measurements

/-! ## Breakdowns -/

/-- What a span counts for, if it is an object with an operation that a start fits and with both times. -/
def usable (starts : List Bytes) (span : Json) : Except Raised (Option (Bytes × (Float × Float))) := do
  if is Json.object? span then
    if has span "op" then
      if is Json.string? (← member span "op") then
        let op ← demand Json.string? (← member span "op")
        match starts.find? fun s => s.isPrefixOf op with
        | none => return none
        | some start =>
          match ← timeAt span "start_timestamp", ← timeAt span "timestamp" with
          | some begins, some ends =>
            if ends < begins then return none
            return some (start, (begins, ends))
          | _, _ => return none
  return none

/-- The entry of a breakdown: one member for each start, and the total. -/
def measured (starts : List Bytes) (usable : List (Bytes × (Float × Float))) : Except Raised Json := do
  let entry ← (starts.filterMap (Breakdowns.timeOf? usable)).foldlM
    (fun entry (name, time) => assign entry name time) (.object [])
  assign entry Breakdowns.totalName
    (Breakdowns.milliseconds (Interval.covered (usable.map Prod.snd)))

/-- An event with one breakdown written to it. -/
def write (event : Json) (b : Breakdown) : Except Raised Json := do
  let spans ← demand Json.array? (← member event "spans")
  let usable := (← spans.mapM (usable b.starts)).filterMap id
  if usable.isEmpty then return event
  let entry ← measured b.starts usable
  let written ← assign (← slot event "breakdowns") b.name entry
  assign event (ascii "breakdowns") written

/-- An event without breakdowns that are no object. -/
def dropMisshapen (event : Json) : Except Raised Json := do
  if has event "breakdowns" then
    if !is Json.object? (← member event "breakdowns") then return ← remove event "breakdowns"
  return event

/-- An event with the breakdowns of its spans. -/
def compute (breakdowns : List Breakdown) (event : Json) : Except Raised Json := do
  if breakdowns.isEmpty then return event
  if has event "spans" then
    if is Json.array? (← member event "spans") then
      return ← breakdowns.foldlM write (← dropMisshapen event)
  return event

section Breakdowns

/-- An event that breakdowns can be written to. -/
structure Ready (spans : List Json) (event : Json) : Prop where
  spans : event.get? (ascii "spans") = some (.array spans)
  breakdowns : ∀ v ∈ event.get? (ascii "breakdowns"), is Json.object? v = true

theorem usable_eq (starts : List Bytes) (span : Json) :
    usable starts span = .ok (Breakdowns.usable? starts span) := by
  unfold usable Breakdowns.usable? Json.text?
  cases hop : span.get? (ascii "op") with
  | none => simp [has_of_get?_none hop]
  | some op =>
    simp only [is_object_of_get? hop, has_of_get? hop, member_of_get? hop, timeAt_eq, if_true, ok_bind]
    cases op with
    | string op =>
      simp only [is, Json.string?, Option.isSome_some, if_true, demand_string, ok_bind]
      cases hstart : starts.find? fun s => s.isPrefixOf op with
      | none => simp [Json.string?, hstart]
      | some start =>
        cases Event.timeAt? span "start_timestamp" with
        | none => simp
        | some begins =>
          cases Event.timeAt? span "timestamp" with
          | none => simp
          | some ends => by_cases hback : ends < begins <;> simp [Json.string?, hstart, hback]
    | _ => rfl

theorem foldlM_assign (times kept : List (Bytes × Json)) :
    times.foldlM (fun entry (name, time) => assign entry name time) (.object kept) =
      .ok (.object (times.foldl (fun kept e => Ordered.insert e.1 e.2 kept) kept)) := by
  induction times generalizing kept with
  | nil => rfl
  | cons m rest ih => exact ih (Ordered.insert m.1 m.2 kept)

theorem measured_eq (starts : List Bytes) (usable : List (Bytes × (Float × Float))) :
    measured starts usable = .ok (.object (Breakdowns.entries starts usable)) := by
  rw [measured, foldlM_assign, ok_bind, assign_object]
  rfl

/-- Writing to a member that is missing starts an object. -/
theorem assign_getD {found : Option Json} (h : ∀ v ∈ found, is Json.object? v = true) (name : Bytes)
    (entry : Json) : assign (found.getD .null) name entry = .ok ((found.getD (.object [])).set name entry) ∧
      is Json.object? ((found.getD (.object [])).set name entry) = true := by
  cases found with
  | none => exact ⟨rfl, rfl⟩
  | some v =>
    have hobject := h v rfl
    cases v with
    | object entries => exact ⟨rfl, rfl⟩
    | _ => cases hobject

theorem Ready.write {spans : List Json} {event : Json} (h : Ready spans event) (b : Breakdown) :
    write event b = .ok (Breakdowns.write spans event b) ∧ Ready spans (Breakdowns.write spans event b) := by
  obtain ⟨members, rfl⟩ := object_of_get? h.spans
  have hslot : slot (.object members) "breakdowns" =
      .ok (((Json.object members).get? (ascii "breakdowns")).getD .null) := rfl
  have husable : ((spans.map (Breakdowns.usable? b.starts)).filterMap id) =
      spans.filterMap (Breakdowns.usable? b.starts) := by
    rw [List.filterMap_map]
    rfl
  unfold Raising.write Breakdowns.write Breakdowns.measure?
  rw [member_of_get? h.spans, ok_bind, demand_array, ok_bind, mapM_eq_ok_map (usable_eq b.starts), ok_bind,
    husable]
  dsimp only
  split
  · exact ⟨rfl, h⟩
  · rw [measured_eq, ok_bind, hslot, ok_bind]
    obtain ⟨hassign, hobject⟩ := assign_getD h.breakdowns b.name
      (.object (Breakdowns.entries b.starts (spans.filterMap (Breakdowns.usable? b.starts))))
    rw [hassign]
    refine ⟨rfl, ⟨?_, ?_⟩⟩
    · exact ((Json.AgreeExcept.set _ _ _).get? _ (by decide)).trans h.spans
    · intro v hv
      have hv := (Ordered.get?_insert_self _ _ members).symm.trans hv
      obtain rfl := Option.some.inj hv
      exact hobject

theorem Ready.foldlM {spans : List Json} {event : Json} (h : Ready spans event)
    (breakdowns : List Breakdown) :
    breakdowns.foldlM Raising.write event = .ok (breakdowns.foldl (Breakdowns.write spans) event) := by
  induction breakdowns generalizing event with
  | nil => rfl
  | cons b rest ih =>
    obtain ⟨hwrite, hready⟩ := h.write b
    rw [List.foldlM_cons, hwrite, ok_bind, ih hready]
    rfl

theorem dropMisshapen_eq (event : Json) : dropMisshapen event = .ok (Breakdowns.dropMisshapen event) := by
  unfold dropMisshapen Breakdowns.dropMisshapen
  cases hget : event.get? (ascii "breakdowns") with
  | none => simp [has_of_get?_none hget]
  | some v =>
    simp only [has_of_get? hget, member_of_get? hget, remove_of_get? hget, if_true, ok_bind]
    cases v <;> rfl

theorem ready_dropMisshapen {event : Json} {spans : List Json}
    (h : event.get? (ascii "spans") = some (.array spans)) :
    Ready spans (Breakdowns.dropMisshapen event) := by
  refine ⟨((Breakdowns.dropMisshapen_agrees event).get? _ (by decide)).trans h, ?_⟩
  intro v hv
  unfold Breakdowns.dropMisshapen at hv
  obtain ⟨members, rfl⟩ := object_of_get? h
  split at hv
  · next entries hentries =>
    cases hentries.symm.trans hv
    rfl
  · next hnone => cases hnone.symm.trans hv
  · cases (Ordered.get?_erase_self _ members).symm.trans hv

theorem compute_eq (breakdowns : List Breakdown) (event : Json) :
    compute breakdowns event = .ok (Breakdowns.compute breakdowns event) := by
  unfold compute Breakdowns.compute
  split
  · rfl
  · cases hget : event.get? (ascii "spans") with
    | none => simp [has_of_get?_none hget]
    | some v =>
      simp only [has_of_get? hget, member_of_get? hget, if_true, ok_bind, dropMisshapen_eq]
      cases v with
      | array spans => exact (ready_dropMisshapen hget).foldlM breakdowns
      | _ => rfl

end Breakdowns

/-! ## Transactions -/

/-- An event whose measurements are capped and whose breakdowns are computed. -/
def normalize (config : Config) (event : Json) : Except Raised Json := do
  let (capped, _) ← cap config.measurements event
  compute config.breakdowns capped

/-- The name of the transaction, scrubbed if it was taken from an address. -/
def nameTag (event : Json) : Except Raised (Option Bytes) := do
  match ← textAt event "transaction" with
  | none => return none
  | some name =>
    let info ← if has event "transaction_info" then member event "transaction_info" else pure .null
    let fromAddress := (← textAt info "source") = some (ascii "url")
    return some (if fromAddress then TransactionName.scrub name else name)

def status (event : Json) : Except Raised Bytes := do
  if has event "contexts" then
    let contexts ← member event "contexts"
    if is Json.object? contexts then
      if has contexts "trace" then
        let trace ← member contexts "trace"
        return (← textAt trace "status").getD (ascii "unknown")
  return ascii "unknown"

def tags (event : Json) : Except Raised Tags := do
  let name ← nameTag event
  let platform ← textAt event "platform"
  let status ← status event
  let release ← textAt event "release"
  let environment ← textAt event "environment"
  return Ordered.insert (ascii "platform") (platform.getD (ascii "other")) <|
    Ordered.insert (ascii "transaction.status") status <|
      Ordered.insertSome (ascii "transaction") name <|
        Ordered.insertSome (ascii "release") release <|
          Ordered.insertSome (ascii "environment") environment []

/-- The unit that an entry gives if it is valid, else another. -/
def unitOr (default : Bytes) (entry : Json) : Except Raised Bytes := do
  return ((← textAt entry "unit").filter Identifier.validUnit).getD default

/-- The duration of an event, if it has a start that is not after its end. -/
def duration (event : Json) (stop : Float) : Except Raised (Option Transaction.Reading) := do
  match ← timeAt event "start_timestamp" with
  | some start =>
    if start ≤ stop then
      return some ⟨Transaction.fullName (ascii "duration") (ascii "millisecond"), (stop - start) * 1000⟩
    return none
  | none => return none

/-- The members of an object member; none if there is no such object. -/
def membersAt (event : Json) (name : String) : Except Raised (List (Bytes × Json)) := do
  if has event name then
    let found ← member event name
    if is Json.object? found then return ← demand Json.object? found
  return []

/-- The reading of an entry with a number. -/
def reading (name defaultUnit : Bytes) (entry : Json) : Except Raised (Option Transaction.Reading) := do
  if ← numbered entry then
    let unit ← unitOr defaultUnit entry
    return some ⟨Transaction.fullName name unit, ← valueOf entry⟩
  return none

def measurements (rules : Option MeasurementRules) (event : Json) :
    Except Raised (List Transaction.Reading) := do
  let readings ← (← membersAt event "measurements").mapM fun m =>
    reading (ascii "measurements." ++ m.1) (Transaction.defaultUnit rules m.1) m.2
  return readings.filterMap id

/-- The reading of an entry of a breakdown, unless it is the total. -/
def part (name : Bytes) (m : Bytes × Json) : Except Raised (Option Transaction.Reading) := do
  if m.1 = Breakdowns.totalName then return none
  reading (ascii "breakdowns." ++ name ++ byte '.' :: m.1) Identifier.defaultUnit m.2

def breakdown (name : Bytes) (entries : Json) : Except Raised (List Transaction.Reading) := do
  if is Json.object? entries then
    let readings ← (← demand Json.object? entries).mapM (part name)
    return readings.filterMap id
  return []

def breakdowns (event : Json) : Except Raised (List Transaction.Reading) := do
  let readings ← (← membersAt event "breakdowns").mapM fun m => breakdown m.1 m.2
  return readings.flatten

/-- The points of an event; `none` if it is no transaction or has no readable end. -/
def points (config : Config) (event : Json) : Except Raised (Option (List (Point Float))) := do
  if !is Json.object? event then return none
  if (← textAt event "type").getD (ascii "transaction") ≠ ascii "transaction" then return none
  match ← timeAt event "timestamp" with
  | none => return none
  | some stop =>
    let tags ← tags event
    let duration ← duration event stop
    let measurements ← measurements config.measurements event
    let breakdowns ← breakdowns event
    let readings := duration.toList ++ (measurements ++ breakdowns).filter Transaction.Reading.named
    return some (readings.map fun r => ⟨r.name, .distribution [r.value], Binary64.toWord stop, tags⟩)

section Transactions

variable (event : Json)

theorem normalize_eq (config : Config) :
    normalize config event = .ok (Transaction.normalize config event) := by
  rw [normalize, cap_eq, ok_bind]
  exact compute_eq _ _

theorem nameTag_eq : nameTag event = .ok (Transaction.nameTag? event) := by
  unfold nameTag Transaction.nameTag?
  have hsource : event.path? ["transaction_info", "source"] =
      (event.get? (ascii "transaction_info")).bind fun info => info.get? (ascii "source") := by
    simp [Json.path?]
  rw [textAt_eq, ok_bind, hsource]
  cases event.text? "transaction" with
  | none => rfl
  | some name =>
    cases hinfo : event.get? (ascii "transaction_info") with
    | none =>
      simp only [has_of_get?_none hinfo]
      rfl
    | some info =>
      simp only [has_of_get? hinfo, member_of_get? hinfo, if_true, ok_bind, textAt_eq, Option.bind_some]
      rfl

theorem status_eq : status event = .ok (Transaction.status event) := by
  unfold status Transaction.status
  have hstatus : event.path? ["contexts", "trace", "status"] =
      (event.get? (ascii "contexts")).bind fun contexts =>
        (contexts.get? (ascii "trace")).bind fun trace => trace.get? (ascii "status") := by
    simp [Json.path?]
  rw [hstatus]
  cases hcontexts : event.get? (ascii "contexts") with
  | none =>
    simp only [has_of_get?_none hcontexts]
    rfl
  | some contexts =>
    simp only [has_of_get? hcontexts, member_of_get? hcontexts, if_true, ok_bind, Option.bind_some]
    cases htrace : contexts.get? (ascii "trace") with
    | none =>
      simp only [has_of_get?_none htrace]
      cases is Json.object? contexts <;> rfl
    | some trace =>
      simp only [is_object_of_get? htrace, has_of_get? htrace, member_of_get? htrace, if_true, ok_bind,
        textAt_eq]
      rfl

theorem tags_eq : tags event = .ok (Transaction.tags event) := by
  unfold tags
  simp only [nameTag_eq, status_eq, textAt_eq, ok_bind]
  rfl

theorem unitOr_eq (default : Bytes) (entry : Json) :
    unitOr default entry = .ok (Transaction.unitOr default entry) := by
  rw [unitOr, textAt_eq]
  rfl

theorem duration_eq (stop : Float) : duration event stop = .ok (Transaction.duration? event stop) := by
  unfold duration Transaction.duration?
  rw [timeAt_eq, ok_bind]
  cases Event.timeAt? event "start_timestamp" with
  | none => rfl
  | some start =>
    dsimp only
    split <;> rfl

theorem membersAt_eq (name : String) : membersAt event name = .ok (Transaction.membersAt event name) := by
  unfold membersAt Transaction.membersAt
  cases hfound : event.get? (ascii name) with
  | none => simp [has_of_get?_none hfound]
  | some found =>
    simp only [has_of_get? hfound, member_of_get? hfound, if_true, ok_bind, Option.bind_some]
    cases found <;> rfl

theorem reading_eq (name defaultUnit : Bytes) (entry : Json) : reading name defaultUnit entry =
    .ok ((Measurements.number? entry).map fun x =>
      ⟨Transaction.fullName name (Transaction.unitOr defaultUnit entry), x⟩) := by
  unfold reading
  rw [numbered_eq, ok_bind]
  cases hnumber : Measurements.number? entry with
  | none => rfl
  | some x =>
    rw [unitOr_eq, ok_bind, valueOf_eq hnumber]
    rfl

theorem measurements_eq (rules : Option MeasurementRules) :
    measurements rules event = .ok (Transaction.measurements rules event) := by
  rw [measurements, membersAt_eq, ok_bind]
  refine bind_eq_ok.mpr ⟨_, mapM_eq_ok_map (fun m : Bytes × Json => reading_eq _ _ m.2) _, ?_⟩
  rw [List.filterMap_map]
  rfl

theorem part_eq (name : Bytes) (m : Bytes × Json) : part name m =
    .ok (if m.1 = Breakdowns.totalName then none
      else (Measurements.number? m.2).map fun x =>
        ⟨Transaction.fullName (ascii "breakdowns." ++ name ++ byte '.' :: m.1)
          (Transaction.unitOr Identifier.defaultUnit m.2), x⟩) := by
  rw [part, reading_eq]
  split <;> rfl

theorem breakdown_eq (name : Bytes) (entries : Json) :
    breakdown name entries = .ok (Transaction.breakdown name entries) := by
  cases entries with
  | object members =>
    rw [breakdown, if_pos is_object, demand_object, ok_bind, mapM_eq_ok_map (part_eq name), ok_bind,
      List.filterMap_map]
    rfl
  | _ => rfl

theorem breakdowns_eq : breakdowns event = .ok (Transaction.breakdowns event) := by
  rw [breakdowns, membersAt_eq, ok_bind]
  refine bind_eq_ok.mpr ⟨_, mapM_eq_ok_map (fun m : Bytes × Json => breakdown_eq m.1 m.2) _, ?_⟩
  rw [Transaction.breakdowns, List.flatMap]
  rfl

theorem points_eq (config : Config) : points config event = .ok (Transaction.points? config event) := by
  unfold points Transaction.points?
  cases event with
  | object members =>
    simp only [is_object, textAt_eq, timeAt_eq, tags_eq, duration_eq, measurements_eq, breakdowns_eq,
      ok_bind]
    by_cases htype : ((Json.object members).text? "type").getD (ascii "transaction") = ascii "transaction"
    · cases Event.timeAt? (.object members) "timestamp" with
      | none => simp [htype, Json.object?]
      | some stop => simp [htype, Json.object?]
    · simp [htype, Json.object?]
  | _ => rfl

end Transactions

/-! ## Items -/

def session (sdk : Option Bytes) (config : Config) (item : Item) (value : Json) :
    Except Raised Extraction.Result := do
  match Extraction.precheck? config item with
  | some decision => return .skip decision item
  | none => match ← sessionPoints value sdk with
    | some points => return ⟨.extracted, points, { item with extracted := true }⟩
    | none => return .skip .invalid item

/-- Extracts from a transaction whose payload is the given value; only the text of its normal form is
passed on. -/
def transaction (config : Config) (item : Item) (event : Json) : Except Raised Extraction.Result := do
  match Extraction.precheck? config item with
  | some decision => return .skip decision item
  | none =>
    let normal ← normalize config event
    match ← points config normal with
    | some points =>
      let payload ← dump normal
      return ⟨.extracted, points, { item with payload, extracted := true }⟩
    | none => return .skip .invalid item

section Items

variable (config : Config) (item : Item)

theorem session_eq (sdk : Option Bytes) (value : Json) :
    session sdk config item value = .ok (Extraction.session sdk config item value) := by
  unfold session Extraction.session
  rw [sessionPoints_eq, ok_bind]
  cases Extraction.precheck? config item with
  | some decision => rfl
  | none => cases Session.points? value sdk <;> rfl

/-- **A transaction raises at most because its normal form has no text.** -/
theorem transaction_eq (event : Json) :
    transaction config item event = (Extraction.transaction config item event).mapError .encoding := by
  unfold transaction Extraction.transaction
  rw [normalize_eq, ok_bind, points_eq, ok_bind]
  cases Extraction.precheck? config item with
  | some decision => rfl
  | none =>
    dsimp only
    cases Transaction.points? config (Transaction.normalize config event) with
    | none => rfl
    | some points =>
      dsimp only [dump]
      cases (Transaction.normalize config event).dump? <;> rfl

end Items

end Telemetry.Raising

import Telemetry.Proofs.Bucket.Wire
import Telemetry.Proofs.Extraction.Visit
import Telemetry.Proofs.Intake.Consistency
import Telemetry.Proofs.Transaction.Idempotence

/-!
# Decisions along the way

Rules, tags, durations and validity read texts and times of an event outside its measurements and its
breakdowns.  Events that read alike there (`ReadAlike`) are decided about alike (`ReadAlike.decidedAlike`).
An event reads like its normal form, and like what its text is read back as, so the next relay decides about
what is passed on as this one did about what it received (`exists_forwarded`).
-/

namespace Telemetry

/-! ## Reading back -/

namespace Json

variable {j : Json}

theorem path?_cons (j : Json) (name : String) (rest : List String) :
    j.path? (name :: rest) = (j.get? (ascii name)).bind fun v => v.path? rest := rfl

theorem text?_eq_path? (j : Json) (name : String) : j.text? name = (j.path? [name]).bind string? := by
  rw [text?, path?_cons]
  cases j.get? (ascii name) <;> rfl

/-- A number is read back with the same value, or as null if it is not finite. -/
theorem readNumber_cases (n : Number) : (∃ n', readNumber n = .number n' ∧ n'.toFloat = n.toFloat) ∨
    readNumber n = .null ∧ Binary64.isFinite n.toFloat = false := by
  cases n with
  | unsigned n => exact Or.inl ⟨_, rfl, rfl⟩
  | signed i =>
    rw [readNumber]
    split
    · exact Or.inl ⟨_, rfl, rfl⟩
    · next h => exact Or.inl ⟨_, rfl, (if_neg h).symm⟩
  | float x =>
    rw [readNumber]
    split
    · exact Or.inl ⟨_, rfl, rfl⟩
    · next h => exact Or.inr ⟨rfl, Bool.not_eq_true _ ▸ h⟩

/-- The members of what is read back are the members read back. -/
theorem InOrder.readBack_get? (h : j.InOrder) (name : Bytes) :
    j.readBack.get? name = (j.get? name).map readBack := by
  cases h with
  | object hsorted h =>
    rw [readBack_object hsorted]
    exact Ordered.get?_map readBack name _
  | number n =>
    rw [readBack]
    obtain ⟨n', hn, -⟩ | ⟨hn, -⟩ := readNumber_cases n <;> rw [hn] <;> rfl
  | _ => rfl

theorem InOrder.readBack_path? (h : j.InOrder) (names : List String) :
    j.readBack.path? names = (j.path? names).map readBack := by
  induction names generalizing j with
  | nil => rfl
  | cons name rest ih =>
    rw [path?_cons, path?_cons, h.readBack_get?]
    cases hget : j.get? (ascii name) with
    | none => rfl
    | some v => exact ih (h.get? hget)

theorem string?_readBack (j : Json) : j.readBack.string? = j.string? := by
  cases j with
  | number n =>
    rw [readBack]
    obtain ⟨n', hn, -⟩ | ⟨hn, -⟩ := readNumber_cases n <;> rw [hn] <;> rfl
  | _ => rfl

theorem isSome_object?_readBack (j : Json) : j.readBack.object?.isSome = j.object?.isSome := by
  cases j with
  | number n =>
    rw [readBack]
    obtain ⟨n', hn, -⟩ | ⟨hn, -⟩ := readNumber_cases n <;> rw [hn] <;> rfl
  | _ => rfl

/-- Numbers that were written stand for the same times; what is not finite stands for none. -/
theorem time?_readBack (j : Json) : Event.time? j.readBack = Event.time? j := by
  cases j with
  | number n =>
    rw [readBack]
    obtain ⟨n', hn, hvalue⟩ | ⟨hn, hvalue⟩ := readNumber_cases n
    · rw [hn, Event.time?, Event.time?, hvalue]
    · rw [hn]
      simp [Event.time?, hvalue]
  | _ => rfl

end Json

/-! ## Events that read alike -/

/-- A member that normalising leaves alone. -/
def Untouched (name : String) : Prop := ascii name ≠ ascii "measurements" ∧ ascii name ≠ ascii "breakdowns"

instance : DecidablePred Untouched := fun name =>
  inferInstanceAs (Decidable (ascii name ≠ ascii "measurements" ∧ ascii name ≠ ascii "breakdowns"))

/-- Outside of measurements and breakdowns the two events have the same texts and times. -/
structure ReadAlike (a b : Json) : Prop where
  object : a.object?.isSome = b.object?.isSome
  texts : ∀ name rest, Untouched name →
    (a.path? (name :: rest)).bind Json.string? = (b.path? (name :: rest)).bind Json.string?
  times : ∀ name, Untouched name → Event.timeAt? a name = Event.timeAt? b name

namespace ReadAlike

variable {a b c : Json}

theorem refl (a : Json) : ReadAlike a a := ⟨rfl, fun _ _ _ => rfl, fun _ _ => rfl⟩

theorem trans (h : ReadAlike a b) (h' : ReadAlike b c) : ReadAlike a c :=
  ⟨h.object.trans h'.object,
    fun name rest hname => (h.texts name rest hname).trans (h'.texts name rest hname),
    fun name hname => (h.times name hname).trans (h'.times name hname)⟩

/-- An event reads like its normal form. -/
theorem normalize (config : Config) (event : Json) :
    ReadAlike (Transaction.normalize config event) event := by
  have hget : ∀ name, Untouched name →
      (Transaction.normalize config event).get? (ascii name) = event.get? (ascii name) :=
    fun name hname => Transaction.normalize_get? config event _ hname.1 hname.2
  refine ⟨Transaction.normalize_object? config event, fun name rest hname => ?_, fun name hname => ?_⟩
  · rw [Json.path?_cons, Json.path?_cons, hget name hname]
  · rw [Event.timeAt?, Event.timeAt?, hget name hname]

/-- An event reads like what its text is read back as. -/
theorem readBack (h : a.InOrder) : ReadAlike a.readBack a := by
  refine ⟨Json.isSome_object?_readBack a, fun name rest _ => ?_, fun name _ => ?_⟩
  · rw [h.readBack_path?]
    cases a.path? (name :: rest) with
    | none => rfl
    | some v => exact Json.string?_readBack v
  · rw [Event.timeAt?, Event.timeAt?, h.readBack_get?]
    cases a.get? (ascii name) with
    | none => rfl
    | some v => exact Json.time?_readBack v

variable (h : ReadAlike a b)

include h

theorem text? (name : String) (hname : Untouched name) : a.text? name = b.text? name := by
  rw [Json.text?_eq_path?, Json.text?_eq_path?]
  exact h.texts name [] hname

theorem field? (field : Bytes) : Event.field? a field = Event.field? b field := by
  have hknown : ∀ e ∈ Event.knownFields, Untouched e.2 := by decide
  have htexts : ∀ known : List (Bytes × String), (∀ e ∈ known, Untouched e.2) →
      (known.lookup field).bind a.text? = (known.lookup field).bind b.text? := by
    intro known hknown
    induction known with
    | nil => rfl
    | cons e rest ih =>
      obtain ⟨hname, hrest⟩ := List.forall_mem_cons.mp hknown
      rw [List.lookup]
      split
      · exact h.text? _ hname
      · exact ih hrest
  exact htexts _ hknown

end ReadAlike

/-! ## Decisions about them -/

namespace Condition

variable {a b : Json}

mutual

/-- A condition looks at fields alone. -/
theorem holds_congr (h : ∀ field, Event.field? a field = Event.field? b field) :
    ∀ c : Condition, c.holds a = c.holds b
  | .all inner => by rw [holds, holds, allHold_congr h inner]
  | .any inner => by rw [holds, holds, anyHolds_congr h inner]
  | .not inner => by rw [holds, holds, holds_congr h inner]
  | .equals field values ignoreCase => by rw [holds, holds, h field]
  | .glob field patterns => by rw [holds, holds, h field]

theorem allHold_congr (h : ∀ field, Event.field? a field = Event.field? b field) :
    ∀ inner : List Condition, allHold a inner = allHold b inner
  | [] => rfl
  | c :: rest => by rw [allHold, allHold, holds_congr h c, allHold_congr h rest]

theorem anyHolds_congr (h : ∀ field, Event.field? a field = Event.field? b field) :
    ∀ inner : List Condition, anyHolds a inner = anyHolds b inner
  | [] => rfl
  | c :: rest => by rw [anyHolds, anyHolds, holds_congr h c, anyHolds_congr h rest]

end

end Condition

namespace Transaction

/-- The points of durations. -/
def durations (points : List (Point Float)) : List (Point Float) :=
  points.filter fun p => p.name = fullName (ascii "duration") (ascii "millisecond")

/-- The duration is the only reading with its name. -/
theorem durations_of_points? {config : Config} {event : Json} {points : List (Point Float)}
    (h : points? config event = some points) :
    ∃ stop, Event.timeAt? event "timestamp" = some stop ∧
      durations points = (duration? event stop).toList.map fun r =>
        ⟨r.name, .distribution [r.value], Binary64.toWord stop, tags event⟩ := by
  obtain ⟨stop, hstop, rfl⟩ := exists_readings h
  refine ⟨stop, hstop, ?_⟩
  have hvalid : (Identifier.parse? (fullName (ascii "duration") (ascii "millisecond"))).isSome = true := by
    decide
  have hduration : ∀ r ∈ duration? event stop,
      r.name = fullName (ascii "duration") (ascii "millisecond") := by
    intro r hr
    unfold duration? at hr
    split at hr
    · split at hr
      · cases hr
        rfl
      · cases hr
    · cases hr
  have hothers : ∀ r ∈ measurements config.measurements event ++ breakdowns event,
      r.name ≠ fullName (ascii "duration") (ascii "millisecond") := by
    intro r hr heq
    rcases List.mem_append.mp hr with hr | hr
    · obtain ⟨⟨n, entry⟩, -, hr⟩ := List.mem_filterMap.mp hr
      obtain ⟨x, -, rfl⟩ := Option.map_eq_some_iff.mp hr
      have hhead : some (byte 'd') = some (byte 'm') :=
        congrArg List.head? (eq_of_fullName_eq hvalid heq.symm)
      exact absurd hhead (by decide)
    · obtain ⟨name, unit, hname⟩ := prefix_of_mem_breakdowns hr
      have hhead : some (byte 'd') = some (byte 'b') :=
        congrArg List.head? (eq_of_fullName_eq hvalid (heq.symm.trans hname))
      exact absurd hhead (by decide)
  rw [durations, List.filter_map, List.filter_append, List.filter_eq_self.mpr ?_,
    List.filter_eq_nil_iff.mpr ?_,
    List.append_nil]
  · intro r hr
    exact mt of_decide_eq_true (hothers r (List.mem_filter.mp hr).1)
  · intro r hr
    exact decide_eq_true (hduration r (Option.mem_toList.mp hr))

end Transaction

/-- The same is decided about two events, and the same duration taken from them, whatever the rules. -/
structure DecidedAlike (a b : Json) : Prop where
  filtered : ∀ f : Filter, f.reason? a = f.reason? b
  sampled : ∀ s : Sampling, s.decide a = s.decide b
  unwanted : ∀ config, Intake.unwanted? config a = Intake.unwanted? config b
  tags : Transaction.tags a = Transaction.tags b
  valid : Extraction.valid .transaction a = Extraction.valid .transaction b
  durations : ∀ config config', (Transaction.points? config a).map Transaction.durations =
    (Transaction.points? config' b).map Transaction.durations

namespace ReadAlike

variable {a b : Json} (h : ReadAlike a b)

include h

theorem filtered (f : Filter) : f.reason? a = f.reason? b := by
  rw [Filter.reason?, Filter.reason?, h.text? "release" (by decide)]

theorem idOf? (subject : Sampling.Subject) : Sampling.idOf? a subject = Sampling.idOf? b subject := by
  cases subject with
  | transaction => exact h.text? "event_id" (by decide)
  | trace => exact h.texts _ _ (by decide)

theorem sampled (s : Sampling) : s.decide a = s.decide b := by
  have hrules : (s.rules.find? fun r => r.condition.holds a) = s.rules.find? fun r => r.condition.holds b :=
    List.find?_congr fun r _ => Condition.holds_congr h.field? r.condition
  unfold Sampling.decide
  rw [hrules]
  split
  · rw [Sampling.Rule.decide, Sampling.Rule.decide, h.idOf?]
  · rfl

theorem tags : Transaction.tags a = Transaction.tags b := by
  have hname : Transaction.nameTag? a = Transaction.nameTag? b := by
    rw [Transaction.nameTag?, Transaction.nameTag?, h.text? "transaction" (by decide),
      h.texts _ _ (by decide)]
  have hstatus : Transaction.status a = Transaction.status b := by
    rw [Transaction.status, Transaction.status, h.texts _ _ (by decide)]
  rw [Transaction.tags, Transaction.tags, hname, hstatus, h.text? "platform" (by decide),
    h.text? "release" (by decide), h.text? "environment" (by decide)]

theorem valid : Extraction.valid .transaction a = Extraction.valid .transaction b := by
  rw [Extraction.valid, Extraction.valid, h.object, h.text? "type" (by decide), h.times _ (by decide)]

theorem duration? (stop : Float) : Transaction.duration? a stop = Transaction.duration? b stop := by
  rw [Transaction.duration?, Transaction.duration?, h.times _ (by decide)]

theorem durations (config config' : Config) : (Transaction.points? config a).map Transaction.durations =
    (Transaction.points? config' b).map Transaction.durations := by
  have hvalid : (Transaction.points? config a).isSome = (Transaction.points? config' b).isSome := by
    rw [Extraction.isSome_transaction_points?, Extraction.isSome_transaction_points?, h.valid]
  cases ha : Transaction.points? config a with
  | none =>
    rw [ha] at hvalid
    rw [Option.isNone_iff_eq_none.mp (Option.isSome_eq_false_iff.mp hvalid.symm)]
  | some points =>
    rw [ha] at hvalid
    obtain ⟨points', hb⟩ := Option.isSome_iff_exists.mp hvalid.symm
    obtain ⟨stop, hstop, hpoints⟩ := Transaction.durations_of_points? ha
    obtain ⟨stop', hstop', hpoints'⟩ := Transaction.durations_of_points? hb
    obtain rfl : stop = stop' :=
      Option.some.inj (hstop.symm.trans ((h.times "timestamp" (by decide)).trans hstop'))
    rw [hb, Option.map_some, Option.map_some, hpoints, hpoints', h.duration?, h.tags]

/-- **Events that read alike are decided about alike.** -/
theorem decidedAlike : DecidedAlike a b where
  filtered := h.filtered
  sampled := h.sampled
  unwanted config := by rw [Intake.unwanted?, Intake.unwanted?, h.filtered, h.sampled]
  tags := h.tags
  valid := h.valid
  durations := h.durations

end ReadAlike

/-! ## What is passed on -/

namespace Extraction

variable {config : Config} {item : Item} {event : Json} {r : Result}

/-- **The next relay reads what this one read**, apart from measurements and breakdowns. -/
theorem exists_forwarded (hevent : Intake.object? item.payload = some event)
    (h : transaction config item event = .ok r) :
    ∃ event', Intake.object? r.item.payload = some event' ∧ ReadAlike event' event := by
  obtain ⟨hparse, hobject⟩ := Option.filter_eq_some_iff.mp hevent
  unfold transaction at h
  split at h
  · cases h
    exact ⟨event, hevent, .refl event⟩
  · dsimp only at h
    split at h
    · split at h
      · next payload hpayload =>
        cases h
        have hnormal := Transaction.inOrder_normalize (Json.parse?_inOrder hparse) config
        have hreads := (ReadAlike.readBack hnormal).trans (.normalize config event)
        rw [Json.dump?] at hpayload
        split at hpayload
        · next hencodable =>
          cases hpayload
          refine ⟨_, Option.filter_eq_some_iff.mpr ⟨Json.parse?_render hencodable, ?_⟩, hreads⟩
          exact hreads.object.trans hobject
        · cases hpayload
      · cases h
    · cases h
      exact ⟨event, hevent, .refl event⟩

/-- **Normalising changes nothing that is decided by.**  Members other than measurements and breakdowns stay
as they are and none comes in, and of breakdowns that were an object those stay that the project does not
configure.  So every rule, every sampling and every extraction answers to the normal form as to the event,
and the next relay about what is passed on as this one did. -/
theorem normalize_decides_nothing :
    (∀ (config : Config) (event : Json),
      (Transaction.normalize config event).object?.isSome = event.object?.isSome ∧
      (∀ name, name ≠ ascii "measurements" → name ≠ ascii "breakdowns" →
        (Transaction.normalize config event).get? name = event.get? name) ∧
      (∀ written, event.get? (ascii "breakdowns") = some (.object written) →
        ∃ written', (Transaction.normalize config event).get? (ascii "breakdowns") = some (.object written') ∧
          ∀ name ∉ config.breakdowns.map (·.name), Ordered.get? name written' = Ordered.get? name written) ∧
      DecidedAlike (Transaction.normalize config event) event) ∧
    ∀ (config : Config) (item : Item) (event : Json) (r : Result),
      Intake.object? item.payload = some event → transaction config item event = .ok r →
      ∃ event', Intake.object? r.item.payload = some event' ∧ DecidedAlike event' event := by
  refine ⟨fun config event => ⟨Transaction.normalize_object? config event,
    Transaction.normalize_get? config event, fun written hwritten => ?_,
    (ReadAlike.normalize config event).decidedAlike⟩,
    fun config item event r hevent h => ?_⟩
  · have hget := (Measurements.cap_agrees config.measurements event).get? (ascii "breakdowns") (by decide)
    exact Breakdowns.compute_keeps (hget.trans hwritten) config.breakdowns
  · obtain ⟨event', hevent', hreads⟩ := exists_forwarded hevent h
    exact ⟨event', hevent', hreads.decidedAlike⟩

/-- A transaction whose measurements are folded and to whose breakdowns one is added is filtered at the next
relay as it was here. -/
theorem normalize_decides_nothing_filtered :
    let number := fun x : UInt64 => Json.number (.unsigned x)
    let event := Json.object [
      (ascii "breakdowns", .object [(ascii "client", .object [])]),
      (ascii "measurements", .object [(ascii "LCP", .object [(ascii "value", number 7)])]),
      (ascii "release", .string (ascii "app@1")),
      (ascii "spans", .array [.object [(ascii "op", .string (ascii "db.query")),
        (ascii "start_timestamp", number 1), (ascii "timestamp", number 3)]]),
      (ascii "timestamp", number 3)]
    let config : Config := { transactionVersion := some 1, breakdowns := [⟨ascii "ops", [ascii "db"]⟩] }
    let item : Item := ⟨.transaction, event.render, false⟩
    (∃ written, (Transaction.normalize config event).get? (ascii "breakdowns") = some (.object written) ∧
      Ordered.get? (ascii "client") written = some (.object [])) ∧
    ∃ r event', transaction config item event = .ok r ∧ r.decision = .extracted ∧
      Intake.object? r.item.payload = some event' ∧
      Filter.reason? ⟨[ascii "app@*"]⟩ event' = some .release ∧ valid .transaction event' = true := by
  intro number event config item
  obtain ⟨hnormal, hforwarded⟩ := normalize_decides_nothing
  obtain ⟨-, -, hbreakdowns, -⟩ := hnormal config event
  obtain ⟨written, hwritten, hkept⟩ := hbreakdowns _ rfl
  have hparse : Json.parse? item.payload = some event := Json.parse?_render (by decide)
  have hevent : Intake.object? item.payload = some event := Option.filter_eq_some_iff.mpr ⟨hparse, rfl⟩
  have hextracted : (transaction config item event).toOption.map (·.decision) = some .extracted := by
    decide +kernel
  obtain ⟨r, h, hr⟩ := Option.map_eq_some_iff.mp hextracted
  replace h := toOption_eq_some.mp h
  obtain ⟨event', hevent', halike⟩ := hforwarded config item event r hevent h
  refine ⟨⟨written, hwritten, hkept _ (by decide)⟩, r, event', h, hr, hevent', ?_, ?_⟩
  · rw [halike.filtered]
    decide
  · rw [halike.valid]
    decide

end Extraction

end Telemetry

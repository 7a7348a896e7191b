import Telemetry.Proofs.Intake.Drops
import Telemetry.Proofs.Intake.Fates

/-!
# Nothing disappears

Each item of an accepted envelope has an account of what became of it (`Accounts`).  The report and the
log are the sums of the accounts of the items in their order (`process_accounted`).
-/

namespace Telemetry

theorem Aggregator.run_fst {ν : Type} [Add ν] [LT ν] [DecidableLT ν] (a : Aggregator ν)
    (requests : List (Request ν)) : (a.run requests).1.map Prod.fst = requests := by
  induction requests generalizing a with
  | nil => rfl
  | cons r rest ih => rw [run_cons, List.map_cons, ih]

theorem Aggregator.length_run {ν : Type} [Add ν] [LT ν] [DecidableLT ν] (a : Aggregator ν)
    (requests : List (Request ν)) : (a.run requests).1.length = requests.length := by
  rw [← List.length_map Prod.fst, run_fst]

namespace Intake

open Effect (applyAll submits request?)

/-! ## Accounts -/

/-- The aggregator took the value. -/
def taken : Aggregator.Request Float × Aggregator.Answer Float → Bool
  | (_, .outcome .ok) => true
  | _ => false

/-- What became of an item. -/
structure Account where
  category : Drop.Category
  forwarded : List Forwarded
  /-- The drop of the whole item. -/
  whole : List Drop
  /-- The drops of its units that could not be read. -/
  unread : List Drop
  /-- The merges of those that could, with what the aggregator answered. -/
  merges : Aggregator.History Float

namespace Account

/-- The drops of refused merges. -/
def refused (x : Account) : List Drop := x.merges.filterMap (refusal? x.category)

/-- How many of the values were extracted from the item. -/
def extracted (x : Account) : Nat := if x.category = .metric then 0 else x.merges.length

/-- Everything recorded of an item, in that order. -/
def drops (x : Account) : List Drop := x.whole ++ x.unread ++ x.refused

end Account

/-- The account of an item. -/
structure Accounts (clock : Nat → UInt64) (receivedAt : UInt64) (project : Project) (i : Item)
    (x : Account) : Prop where
  category : x.category = i.kind.category
  /-- Every drop counts once, for the project. -/
  drops : ∀ d ∈ x.drops, d.Within project.scope ∧ d.category = i.kind.category
  /-- An item that is dropped as a whole has one drop, under the reason of its cause. -/
  whole : x.whole.map Drop.reason = (wholeReason? project i).toList
  /-- Then nothing else becomes of it. -/
  silent : x.whole ≠ [] → x.forwarded = [] ∧ x.unread = [] ∧ x.merges = []
  unread : x.unread.length = unreadable receivedAt project.scope i ∧
    ∀ d ∈ x.unread, d.reason = .invalidMetric
  /-- The aggregator was asked for merges into buckets of the project only, each at its own clock reading. -/
  merges : ∀ e ∈ x.merges.zipIdx, ∃ k v o, e.1 = (.merge (clock e.2) k v, .outcome o) ∧
    k.scope = project.scope
  /-- A payload of metrics never goes on, and each of its units is read or not. -/
  metrics : i.kind = .metrics ∨ i.kind = .buckets →
    x.forwarded = [] ∧ (x.whole = [] → x.unread.length + x.merges.length = units i)
  /-- A session or transaction that is not dropped goes on once, as it came unless it was extracted
  from here. -/
  passed : i.kind = .session ∨ i.kind = .transaction → x.whole = [] →
    ∃ f, x.forwarded = [f] ∧ f.item.kind = i.kind ∧
      if f.extractedHere then f.item.extracted = true else f.item = i ∧ x.merges = []

/-! ## Accounts of effects -/

def Effect.forwarded? : Effect → Option Forwarded
  | .forward r => some ⟨r.item, r.decision = .extracted⟩
  | .record _ | .dropItem _ | .submit .. | .extract _ => none

def Effect.dropped? : Effect → Option Drop
  | .dropItem d => some d
  | .record _ | .forward _ | .submit .. | .extract _ => none

def Effect.recorded? : Effect → Option Drop
  | .record d => some d
  | .dropItem _ | .forward _ | .submit .. | .extract _ => none

def Effect.extracted? : Effect → Option Nat
  | .extract n => some n
  | .record _ | .dropItem _ | .forward _ | .submit .. => none

open Effect (forwarded? dropped? recorded? extracted?)

theorem report_apply (p : Progress) (e : Effect) :
    (e.apply p).2 =
      { accepted := p.2.accepted
        dropped := p.2.dropped + ([e].filterMap dropped?).length
        extracted := p.2.extracted + ([e].filterMap extracted?).sum
        merged := p.2.merged + (p.1.aggregator.run ([e].filterMap request?)).1.countP taken
        forwarded := p.2.forwarded ++ [e].filterMap forwarded? } := by
  have hnil := List.append_nil p.2.forwarded
  cases e with
  | record d => exact congrArg (Report.mk p.2.accepted _ _ _) hnil.symm
  | dropItem d => exact congrArg (Report.mk p.2.accepted _ _ _) hnil.symm
  | extract n => exact congrArg (Report.mk p.2.accepted _ _ _) hnil.symm
  | forward r => rfl
  | submit now category k v =>
    change (merge now category k v p).2 = ⟨p.2.accepted, p.2.dropped, p.2.extracted,
      p.2.merged + [((.merge now k v, .outcome (p.1.aggregator.merge now k v).1) :
        Aggregator.Request Float × Aggregator.Answer Float)].countP taken, p.2.forwarded ++ []⟩
    rw [hnil]
    unfold merge
    dsimp only
    cases (p.1.aggregator.merge now k v).1 <;> rfl

/-- **What some effects report.** -/
theorem report_applyAll (p : Progress) (es : List Effect) :
    (applyAll p es).2 =
      { accepted := p.2.accepted
        dropped := p.2.dropped + (es.filterMap dropped?).length
        extracted := p.2.extracted + (es.filterMap extracted?).sum
        merged := p.2.merged + (p.1.aggregator.run (es.filterMap request?)).1.countP taken
        forwarded := p.2.forwarded ++ es.filterMap forwarded? } := by
  induction es generalizing p with
  | nil => exact congrArg (Report.mk p.2.accepted _ _ _) (List.append_nil p.2.forwarded).symm
  | cons e rest ih =>
    have hsplit : ∀ {γ : Type} (f : Effect → Option γ),
        (e :: rest).filterMap f = [e].filterMap f ++ rest.filterMap f := fun f =>
      List.filterMap_append (l := [e])
    have hstate : (e.apply p).1.aggregator = (p.1.aggregator.run ([e].filterMap request?)).2 :=
      aggregator_applyAll p [e]
    change (applyAll (e.apply p) rest).2 = _
    rw [ih, report_apply, hstate]
    simp only [hsplit, Aggregator.run_append, List.length_append, List.sum_append,
      List.countP_append, Nat.add_assoc, List.append_assoc]

/-- The account of some effects. -/
def account (a : Aggregator Float) (category : Drop.Category) (es : List Effect) : Account where
  category
  forwarded := es.filterMap forwarded?
  whole := es.filterMap dropped?
  unread := es.filterMap recorded?
  merges := (a.run (es.filterMap request?)).1

/-- What the aggregator is asked for by values that are submitted one after another. -/
def requests (clock : Nat → UInt64) (values : List (BucketKey × Value Float)) :
    List (Aggregator.Request Float) :=
  values.zipIdx.map fun (x, n) => .merge (clock n) x.1 x.2

section Shapes

variable (clock : Nat → UInt64) (a : Aggregator Float) (category : Drop.Category)

theorem length_run_requests (values : List (BucketKey × Value Float)) :
    (a.run (requests clock values)).1.length = values.length := by
  rw [Aggregator.length_run, requests, List.length_map, List.length_zipIdx]

theorem filterMap_submits (values : List (BucketKey × Value Float)) :
    (submits clock category values).filterMap request? = requests clock values ∧
      (submits clock category values).filterMap forwarded? = [] ∧
      (submits clock category values).filterMap dropped? = [] ∧
      (submits clock category values).filterMap recorded? = [] ∧
      (submits clock category values).filterMap extracted? = [] := by
  unfold submits requests
  induction values.zipIdx with
  | nil => exact ⟨rfl, rfl, rfl, rfl, rfl⟩
  | cons x rest ih =>
    obtain ⟨hrequest, hothers⟩ := ih
    exact ⟨congrArg (List.cons (Aggregator.Request.merge (clock x.2) x.1.1 x.1.2)) hrequest, hothers⟩

theorem filterMap_records (ds : List Drop) :
    (ds.map Effect.record).filterMap request? = [] ∧
      (ds.map Effect.record).filterMap forwarded? = [] ∧
      (ds.map Effect.record).filterMap dropped? = [] ∧
      (ds.map Effect.record).filterMap extracted? = [] ∧
      (ds.map Effect.record).filterMap recorded? = ds := by
  induction ds with
  | nil => exact ⟨rfl, rfl, rfl, rfl, rfl⟩
  | cons d rest ih =>
    obtain ⟨hrequest, hforwarded, hdropped, hextracted, hrecorded⟩ := ih
    exact ⟨hrequest, hforwarded, hdropped, hextracted, congrArg (List.cons d) hrecorded⟩

theorem drops_records (ds : List Drop) (es : List Effect) :
    drops a (ds.map .record ++ es) = ds ++ drops a es := by
  induction ds with
  | nil => rfl
  | cons d rest ih => exact congrArg (List.cons d) ih

theorem drops_submits (values : List (BucketKey × Value Float)) {last : List Effect}
    (hlast : ∀ a, drops a last = []) :
    drops a (submits clock category values ++ last) =
      (a.run (requests clock values)).1.filterMap (refusal? category) := by
  unfold submits requests
  induction values.zipIdx generalizing a with
  | nil => exact hlast a
  | cons x rest ih =>
    obtain ⟨⟨k, v⟩, n⟩ := x
    have hserve : a.serve (.merge (clock n) k v) =
        (.outcome (a.merge (clock n) k v).1, (a.merge (clock n) k v).2) := rfl
    change _ ++ drops (a.merge (clock n) k v).2 (rest.map _ ++ last) = _
    rw [ih, List.map_cons, Aggregator.run_cons, hserve, List.filterMap_cons]
    cases refusal? category (.merge (clock n) k v, .outcome (a.merge (clock n) k v).1) <;> rfl

theorem account_read (ds : List Drop) (values : List (BucketKey × Value Float)) :
    account a category (ds.map .record ++ submits clock category values) =
        ⟨category, [], [], ds, (a.run (requests clock values)).1⟩ ∧
      drops a (ds.map .record ++ submits clock category values) =
        (account a category (ds.map .record ++ submits clock category values)).drops := by
  obtain ⟨hrequest, hforwarded, hdropped, hrecorded, -⟩ := filterMap_submits clock category values
  obtain ⟨hrequest', hforwarded', hdropped', -, hrecorded'⟩ := filterMap_records ds
  have haccount : account a category (ds.map .record ++ submits clock category values) =
      ⟨category, [], [], ds, (a.run (requests clock values)).1⟩ := by
    simp only [account, List.filterMap_append, hrequest, hforwarded, hdropped, hrecorded, hrequest',
      hforwarded', hdropped', hrecorded', List.append_nil, List.nil_append]
  have hdrops := drops_submits clock a category values (fun _ => rfl : ∀ a, drops a [] = [])
  rw [List.append_nil] at hdrops
  refine ⟨haccount, ?_⟩
  rw [haccount, drops_records, hdrops]
  rfl

theorem account_extracted (scope : Scope) (r : Extraction.Result) :
    account a category (extracted clock category scope r) =
        ⟨category, [⟨r.item, r.decision = .extracted⟩], [], [],
          (a.run (requests clock (r.points.map (submission scope)))).1⟩ ∧
      drops a (extracted clock category scope r) =
        (account a category (extracted clock category scope r)).drops := by
  obtain ⟨hrequest, hforwarded, hdropped, hrecorded, -⟩ :=
    filterMap_submits clock category (r.points.map (submission scope))
  have haccount : account a category (extracted clock category scope r) =
      ⟨category, [⟨r.item, r.decision = .extracted⟩], [], [],
        (a.run (requests clock (r.points.map (submission scope)))).1⟩ := by
    change account a category (submits clock category _ ++ [.forward r]) = _
    simp only [account, List.filterMap_append, hrequest, hforwarded, hdropped, hrecorded]
    change Account.mk category [_] [] [] (a.run (_ ++ [])).1 = _
    rw [List.append_nil]
  refine ⟨haccount, ?_⟩
  rw [haccount]
  change drops a (submits clock category _ ++ [.forward r]) = _
  rw [drops_submits clock a category _ fun _ => rfl]
  rfl

end Shapes

/-! ## Items -/

/-- Values of a project are merged into its buckets, each at the clock reading of its number. -/
theorem merges_requests {scope : Scope} (clock : Nat → UInt64) (a : Aggregator Float)
    {values : List (BucketKey × Value Float)} (h : ∀ x ∈ values, x.1.scope = scope) :
    ∀ e ∈ (a.run (requests clock values)).1.zipIdx, ∃ k v o,
      e.1 = (.merge (clock e.2) k v, .outcome o) ∧ k.scope = scope := by
  unfold requests
  generalize 0 = n
  induction values generalizing a n with
  | nil => exact List.forall_mem_nil _
  | cons x rest ih =>
    obtain ⟨hx, hrest⟩ := List.forall_mem_cons.mp h
    rw [List.zipIdx_cons, List.map_cons, Aggregator.run_cons, List.zipIdx_cons]
    exact List.forall_mem_cons.mpr ⟨⟨x.1, x.2, _, rfl, hx⟩, ih _ hrest _⟩

theorem scope_of_within_submits {scope : Scope} {clock : Nat → UInt64} {category : Drop.Category}
    {values : List (BucketKey × Value Float)}
    (h : ∀ e ∈ submits clock category values, e.Within scope) : ∀ x ∈ values, x.1.scope = scope := by
  intro x hx
  rw [← List.zipIdx_map_fst 0 values] at hx
  obtain ⟨⟨x, n⟩, hmem, rfl⟩ := List.mem_map.mp hx
  exact h _ (List.mem_map_of_mem hmem)

variable {clock : Nat → UInt64} {receivedAt : UInt64} {project : Project} {i : Item} {es : List Effect}

theorem Fate.drops_eq (h : Fate clock receivedAt project i es) (a : Aggregator Float) :
    Intake.drops a es = (account a i.kind.category es).drops := by
  cases h with
  | dropped d => rfl
  | read hkind hkept ds hds values => exact (account_read clock a i.kind.category ds values).2
  | passed hkind hkept r => exact (account_extracted clock a i.kind.category project.scope r).2

/-- What was extracted from an item is what was merged from it. -/
theorem Fate.extracted_eq (h : Fate clock receivedAt project i es) (a : Aggregator Float) :
    (es.filterMap extracted?).sum = (account a i.kind.category es).extracted := by
  cases h with
  | dropped d => exact (ite_self 0).symm
  | read hkind hkept ds hds values =>
    have hcategory : i.kind.category = .metric := by
      rcases hkind with hkind | hkind <;> exact congrArg ItemKind.category hkind
    obtain ⟨-, -, -, -, hvalues⟩ := filterMap_submits clock i.kind.category values
    obtain ⟨-, -, -, hrecords, -⟩ := filterMap_records ds
    rw [List.filterMap_append, hrecords, hvalues]
    exact (if_pos hcategory).symm
  | passed hkind hkept r =>
    have hcategory : i.kind.category ≠ .metric := by
      rcases hkind with hkind | hkind <;> rw [hkind] <;> exact Drop.Category.noConfusion
    obtain ⟨-, -, -, -, hvalues⟩ :=
      filterMap_submits clock i.kind.category (r.points.map (submission project.scope))
    rw [(account_extracted clock a i.kind.category project.scope r).1, Account.extracted,
      if_neg hcategory, length_run_requests, List.length_map, extracted, List.filterMap_append]
    change (r.points.length :: (submits clock i.kind.category _).filterMap extracted? ++ []).sum = _
    rw [hvalues]
    rfl

theorem refused_category {x : Account} {d : Drop} (hd : d ∈ x.refused) : d.category = x.category := by
  obtain ⟨⟨request, answer⟩, -, hd⟩ := List.mem_filterMap.mp hd
  unfold refusal? at hd
  split at hd
  · obtain ⟨reason, -, rfl⟩ := Option.map_eq_some_iff.mp hd
    rfl
  · cases hd

theorem not_both {k : ItemKind} (h : k = .metrics ∨ k = .buckets) :
    ¬ (k = .session ∨ k = .transaction) := by
  rcases h with rfl | rfl <;> rintro (h | h) <;> cases h

/-- **The account of an item**, whatever the aggregator holds. -/
theorem Fate.accounts (h : Fate clock receivedAt project i es)
    (hwithin : ∀ e ∈ es, e.Within project.scope) (a : Aggregator Float) :
    Accounts clock receivedAt project i (account a i.kind.category es) := by
  have hdrops : ∀ d ∈ (account a i.kind.category es).drops, d.Within project.scope := by
    rw [← h.drops_eq]
    exact within_drops a hwithin
  have hrefused : ∀ d ∈ (account a i.kind.category es).refused, d.category = i.kind.category :=
    fun d hd => refused_category hd
  cases h with
  | dropped d hreason hcategory hunread =>
    refine ⟨rfl, fun d' hd' => ⟨hdrops d' hd', ?_⟩, ?_, fun _ => ⟨rfl, rfl, rfl⟩, ⟨hunread.symm, ?_⟩,
      List.forall_mem_nil _, fun _ => ⟨rfl, fun hnil => nomatch hnil⟩, fun _ hnil => nomatch hnil⟩
    · obtain rfl := List.mem_singleton.mp hd'
      exact hcategory
    · rw [hreason]
      rfl
    · exact List.forall_mem_nil _
  | read hkind hkept ds hds values hunread hunits =>
    rw [(account_read clock a i.kind.category ds values).1] at hdrops hrefused ⊢
    have hscope : ∀ x ∈ values, x.1.scope = project.scope :=
      scope_of_within_submits fun e he => hwithin e (List.mem_append_right _ he)
    refine ⟨rfl, fun d hd => ⟨hdrops d hd, ?_⟩, ?_, fun hne => absurd rfl hne, ⟨hunread, ?_⟩,
      merges_requests clock a hscope, fun _ => ⟨rfl, fun _ => ?_⟩, ?_⟩
    · rcases List.mem_append.mp hd with hd | hd
      · exact (hds d hd).2
      · exact hrefused d hd
    · rw [hkept]
      rfl
    · exact fun d hd => (hds d hd).1
    · rw [length_run_requests]
      exact hunits
    · exact fun hother => absurd hother (not_both hkind)
  | passed hkind hkept r hitem =>
    rw [(account_extracted clock a i.kind.category project.scope r).1] at hdrops hrefused ⊢
    have hscope : ∀ x ∈ r.points.map (submission project.scope), x.1.scope = project.scope := by
      intro x hx
      obtain ⟨p, -, rfl⟩ := List.mem_map.mp hx
      rfl
    refine ⟨rfl, fun d hd => ⟨hdrops d hd, hrefused d hd⟩, ?_, fun hne => absurd rfl hne, ?_,
      merges_requests clock a hscope, ?_, ?_⟩
    · rw [hkept]
      rfl
    · refine ⟨?_, List.forall_mem_nil _⟩
      rcases hkind with hkind | hkind <;> rw [unreadable, hkind] <;> rfl
    · exact fun hother => absurd hkind (not_both hother)
    · intro _ _
      have hsplit := hitem.item
      refine ⟨_, rfl, hitem.kind, ?_⟩
      by_cases hextracted : r.decision = .extracted
      · rw [if_pos hextracted] at hsplit
        rw [if_pos (decide_eq_true hextracted)]
        exact hsplit
      · rw [if_neg hextracted] at hsplit
        rw [if_neg (by simpa using hextracted)]
        refine ⟨hsplit.1, ?_⟩
        rw [hsplit.2]
        rfl

namespace Accounts

variable {x : Account}

theorem length_refused (h : Accounts clock receivedAt project i x) :
    x.refused.length = x.merges.countP fun e => !taken e := by
  rw [Account.refused, List.length_filterMap_eq_countP]
  apply List.countP_congr
  intro e he
  rw [← List.zipIdx_map_fst 0 x.merges] at he
  obtain ⟨⟨e, n⟩, hmem, rfl⟩ := List.mem_map.mp he
  obtain ⟨k, v, o, hmerge, -⟩ := h.merges _ hmem
  rw [hmerge]
  cases o <;> exact Iff.rfl

theorem length_whole (h : Accounts clock receivedAt project i x) :
    x.whole.length = if (wholeReason? project i).isSome then 1 else 0 := by
  rw [← List.length_map Drop.reason, h.whole]
  cases wholeReason? project i <;> rfl

theorem length_drops (h : Accounts clock receivedAt project i x) :
    x.drops.length = x.whole.length + unreadable receivedAt project.scope i +
      x.merges.countP fun e => !taken e := by
  rw [Account.drops, List.length_append, List.length_append, h.unread.1, h.length_refused]

end Accounts

/-! ## Envelopes -/

/-- How the accounts of some items add up. -/
structure Adds (p q : Progress) (accounts : List Account) : Prop where
  accepted : q.2.accepted = p.2.accepted
  forwarded : q.2.forwarded = p.2.forwarded ++ accounts.flatMap Account.forwarded
  dropped : q.2.dropped = p.2.dropped + (accounts.flatMap Account.whole).length
  extracted : q.2.extracted = p.2.extracted + (accounts.map Account.extracted).sum
  /-- The merges are a run of the aggregator. -/
  run : p.1.aggregator.run ((accounts.flatMap Account.merges).map Prod.fst) =
    (accounts.flatMap Account.merges, q.1.aggregator)
  merged : q.2.merged = p.2.merged + (accounts.flatMap Account.merges).countP taken
  log : q.1.log = p.1.log.recordAll (accounts.flatMap Account.drops)

theorem Adds.refl (p : Progress) : Adds p p [] :=
  ⟨rfl, (List.append_nil _).symm, rfl, rfl, rfl, rfl, rfl⟩

theorem Adds.trans {p q r : Progress} {accounts more : List Account} (h : Adds p q accounts)
    (h' : Adds q r more) : Adds p r (accounts ++ more) := by
  refine ⟨h'.accepted.trans h.accepted, ?_, ?_, ?_, ?_, ?_, ?_⟩
  · rw [h'.forwarded, h.forwarded, List.flatMap_append, List.append_assoc]
  · rw [h'.dropped, h.dropped, List.flatMap_append, List.length_append, Nat.add_assoc]
  · rw [h'.extracted, h.extracted, List.map_append, List.sum_append, Nat.add_assoc]
  · rw [List.flatMap_append, List.map_append, Aggregator.run_append, h.run, h'.run]
  · rw [h'.merged, h.merged, List.flatMap_append, List.countP_append, Nat.add_assoc]
  · rw [h'.log, h.log, List.flatMap_append, DropLog.recordAll_append]

theorem Fate.adds (h : Fate clock receivedAt project i es) (p : Progress) :
    Adds p (applyAll p es) [account p.1.aggregator i.kind.category es] := by
  have hreport := report_applyAll p es
  refine ⟨?_, ?_, ?_, ?_, ?_, ?_, ?_⟩
  · rw [hreport]
  · rw [hreport, List.flatMap_singleton]
    rfl
  · rw [hreport, List.flatMap_singleton]
    rfl
  · rw [hreport, h.extracted_eq p.1.aggregator]
    rfl
  · rw [List.flatMap_singleton, account, Aggregator.run_fst, aggregator_applyAll]
  · rw [hreport, List.flatMap_singleton]
    rfl
  · rw [log_applyAll, h.drops_eq, List.flatMap_singleton]

/-- Items with their numbers, by which they find their clock readings, have these accounts. -/
abbrev AllAccount (clock : Clock) (receivedAt : UInt64) (project : Project) :
    List (Item × Nat) → List Account → Prop :=
  List.Forall₂ fun e => Accounts (clock e.2) receivedAt project e.1

/-- **The accounts of items that are taken in one after another** add up. -/
theorem accounts_of_foldlM {clock : Clock} {envelope : Envelope} {items : List (Item × Nat)}
    {p q : Progress}
    (h : items.foldlM (fun p e => item (clock e.2) envelope project p e.1) p = .ok q) :
    ∃ accounts, AllAccount clock envelope.receivedAt project items accounts ∧ Adds p q accounts := by
  induction items generalizing p with
  | nil =>
    cases h
    exact ⟨[], .nil, .refl _⟩
  | cons x rest ih =>
    obtain ⟨i, n⟩ := x
    rw [List.foldlM_cons] at h
    obtain ⟨p', hp', h⟩ := bind_eq_ok.mp h
    obtain ⟨accounts, haccounts, hadds⟩ := ih h
    dsimp only at hp'
    rw [item_eq] at hp'
    cases hes : itemEffects (clock n) envelope project i with
    | error e =>
      rw [hes] at hp'
      cases hp'
    | ok es =>
      rw [hes] at hp'
      cases hp'
      have hfate := fate_itemEffects hes
      exact ⟨_, .cons (hfate.accounts (within_itemEffects _ hes) p.1.aggregator) haccounts,
        (hfate.adds p).trans hadds⟩

theorem foldlM_succeeds (hconfig : project.config.Encodable) (clock : Clock) (envelope : Envelope)
    (items : List (Item × Nat)) (p : Progress) :
    ∃ q, items.foldlM (fun p e => item (clock e.2) envelope project p e.1) p = .ok q := by
  induction items generalizing p with
  | nil => exact ⟨p, rfl⟩
  | cons x rest ih =>
    obtain ⟨es, hes⟩ := itemEffects_succeed hconfig (clock x.2) envelope x.1
    obtain ⟨q, hq⟩ := ih (applyAll p es)
    refine ⟨q, ?_⟩
    rw [List.foldlM_cons, item_eq, hes]
    exact hq

section Sums

variable {clock : Clock} {items : List (Item × Nat)} {accounts : List Account}
  (h : AllAccount clock receivedAt project items accounts)
include h

theorem length_whole : (accounts.flatMap Account.whole).length =
    (items.map Prod.fst).countP fun i => (wholeReason? project i).isSome := by
  induction h with
  | nil => rfl
  | cons hi _ ih =>
    rw [List.flatMap_cons, List.length_append, ih, hi.length_whole, List.map_cons, List.countP_cons,
      Nat.add_comm]

theorem length_drops : (accounts.flatMap Account.drops).length =
    (accounts.flatMap Account.whole).length +
      ((items.map Prod.fst).map (unreadable receivedAt project.scope)).sum +
      (accounts.flatMap Account.merges).countP fun e => !taken e := by
  induction h with
  | nil => rfl
  | cons hi _ ih =>
    simp only [List.flatMap_cons, List.length_append, List.map_cons, List.sum_cons, List.countP_append,
      ih, hi.length_drops]
    omega

theorem within_accounts : ∀ d ∈ accounts.flatMap Account.drops, d.Within project.scope := by
  induction h with
  | nil => exact List.forall_mem_nil _
  | cons hi _ ih =>
    intro d hd
    rcases List.mem_append.mp hd with hd | hd
    · exact (hi.drops d hd).1
    · exact ih d hd

end Sums

/-- What an accepted envelope comes to. -/
structure Accounted (clock : Clock) (envelope : Envelope) (project : Project) (s : Intake) (p : Progress)
    (accounts : List Account) : Prop where
  accepted : p.2.accepted = true
  items : AllAccount clock envelope.receivedAt project envelope.items.zipIdx accounts
  forwarded : p.2.forwarded = accounts.flatMap Account.forwarded
  /-- The items that were dropped as a whole, by their causes. -/
  dropped : p.2.dropped = envelope.items.countP fun i => (wholeReason? project i).isSome
  extracted : p.2.extracted = (accounts.map Account.extracted).sum
  /-- The merges are a run of the aggregator. -/
  run : s.aggregator.run ((accounts.flatMap Account.merges).map Prod.fst) =
    (accounts.flatMap Account.merges, p.1.aggregator)
  merged : p.2.merged = (accounts.flatMap Account.merges).countP taken
  log : p.1.log = s.log.recordAll (accounts.flatMap Account.drops)
  /-- What is dropped is items, units that cannot be read, and values that are refused. -/
  total : p.1.log.total = s.log.total + UInt64.ofNat (p.2.dropped +
    (envelope.items.map (unreadable envelope.receivedAt project.scope)).sum +
    (accounts.flatMap Account.merges).countP fun e => !taken e)
  counts : ∀ reason, p.1.log.counts.get reason = s.log.counts.get reason + UInt64.ofNat
    ((accounts.flatMap Account.drops).countP fun d => d.reason = reason)

/-- **Nothing disappears.**  A refused envelope changes nothing; of an accepted one, each item has its
account, and the report and the log are their sums.  An envelope fails for no project whose configuration
was read from JSON. -/
theorem process_accounted (phase : Phase) (clock : Clock) (envelope : Envelope) (project : Project)
    (s : Intake) :
    if phase ≠ .running ∨ project.disabled then
      ∃ p, s.process phase clock envelope project = .ok p ∧ p.2.accepted = false ∧
        p.2.forwarded = [] ∧ p.1.aggregator = s.aggregator ∧ p.1.log = s.log
    else
      (project.config.Parsed → ∃ p, s.process phase clock envelope project = .ok p) ∧
      ∀ p, s.process phase clock envelope project = .ok p →
        ∃ accounts, Accounted clock envelope project s p accounts := by
  unfold process
  dsimp only
  by_cases hrefused : phase ≠ .running ∨ project.disabled
  · rw [if_pos hrefused, if_pos hrefused]
    exact ⟨_, rfl, rfl, rfl, rfl, rfl⟩
  · rw [if_neg hrefused, if_neg hrefused]
    refine ⟨fun hconfig => foldlM_succeeds hconfig.encodable clock envelope envelope.items.zipIdx _, ?_⟩
    intro p hp
    obtain ⟨accounts, haccounts, hadds⟩ := accounts_of_foldlM hp
    have hdropped : p.2.dropped = (accounts.flatMap Account.whole).length :=
      hadds.dropped.trans (Nat.zero_add _)
    have hwhole := length_whole haccounts
    have hdrops := length_drops haccounts
    rw [List.zipIdx_map_fst] at hwhole hdrops
    obtain ⟨htotal, hcounts⟩ := s.log.counts_recordAll fun d hd => (within_accounts haccounts d hd).once
    exact ⟨accounts, {
      accepted := hadds.accepted
      items := haccounts
      forwarded := hadds.forwarded.trans (List.nil_append _)
      dropped := hdropped.trans hwhole
      extracted := hadds.extracted.trans (Nat.zero_add _)
      run := hadds.run
      merged := hadds.merged.trans (Nat.zero_add _)
      log := hadds.log
      total := by rw [hadds.log, htotal, hdropped, hdrops]
      counts := by
        intro reason
        rw [hadds.log, hcounts] }⟩

/-- Lines, buckets, a session and transactions, some of which are faulty, refused or filtered, while the
clock goes on. -/
theorem process_accounted_mixed :
    let config : Config := { filter := ⟨[ascii "1.*"]⟩ }
    let project : Project := { scope := ⟨1, 42⟩, config }
    let envelope : Envelope := ⟨7, none, 1700000000, [
      ⟨.metrics, ascii "a:1|c\n\nb:x|c\nc:1|c|T1", false⟩,
      ⟨.buckets, ascii "x", false⟩,
      ⟨.buckets, ascii "[1]", false⟩,
      ⟨.session, ascii "\x7b\x7d", false⟩,
      ⟨.transaction, ascii "\x7b\"release\":\"1.0\"\x7d", false⟩,
      ⟨.transaction, ascii "\x7b\x7d", false⟩]⟩
    let clock : Clock := fun i n => UInt64.ofNat (1700000001 + 2 * i + n)
    let s : Intake := { aggregator := .empty {} 2 }
    ∃ p accounts, s.process .running clock envelope project = .ok p ∧
      Accounted clock envelope project s p accounts ∧
      (p.2.merged, p.2.dropped, p.2.forwarded.length, p.1.log.total) = (1, 2, 2, 5) := by
  intro config project envelope clock s
  have hconfig : config.Parsed := by
    apply Config.parsed_of_read (j := .object [(ascii "filterSettings", .object [(ascii "releases",
      .object [(ascii "releases", .array [.string (ascii "1.*")])])])])
    · decide
    · rfl
  have htotals : (s.process .running clock envelope project).map (fun p =>
      (p.2.merged, p.2.dropped, p.2.forwarded.length, p.1.log.total)) = .ok (1, 2, 2, 5) := by
    decide +kernel
  have hcases := process_accounted .running clock envelope project s
  rw [if_neg (by decide)] at hcases
  obtain ⟨p, hp⟩ := hcases.1 hconfig
  obtain ⟨accounts, haccounts⟩ := hcases.2 p hp
  rw [hp] at htotals
  exact ⟨p, accounts, hp, haccounts, Except.ok.inj htotals⟩

end Intake

end Telemetry

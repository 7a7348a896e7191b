import Telemetry.Proofs.Aggregator.Conservation

/-!
# Closing and draining while merges run

Merges and drains run at the same time.  A merge checks the switch, reads the clock and checks its
window, and then looks at the switch again inside its shard; a drain goes from shard to shard; the
steps of all of them come in any order.  Two invariants carry the result.  `Accounted`: for every key
there are books that balance and that name each accepted merge once.  `Swept`: behind a drain of
everything that began on a closed aggregator the shards are empty, and they stay so because the
second look at the switch refuses every later merge.
-/

namespace Telemetry.Aggregator

variable {ν : Type}

/-! ## Critical sections -/

/-- What a drain does while it holds one shard. -/
def takeShard (leaves : Stored ν → Bool) (i : Nat) (a : Aggregator ν) :
    List (Bucket ν) × Aggregator ν :=
  let (taken, rest) := Shard.take leaves ((a.shards[i]?).getD [])
  (taken.map (release a.settings), { a with shards := a.shards.set i rest })

/-- What a merge does while it holds the shard of its key. -/
def commit [Add ν] [LT ν] [DecidableLT ν] (now : UInt64) (k : BucketKey) (v : Value ν)
    (a : Aggregator ν) : Outcome × Aggregator ν :=
  if a.closed then (.shuttingDown, a)
  else
    let slot := a.settings.slot k
    match a.place? slot (a.settings.dueAt slot.timestamp now) v with
    | some a' => (.ok, a')
    | none => (.typeMismatch, a)

theorem commit_cases [Add ν] [LT ν] [DecidableLT ν] (now : UInt64) (k : BucketKey) (v : Value ν)
    (a : Aggregator ν) :
    (∃ o, o ≠ .ok ∧ a.commit now k v = (o, a)) ∨
      ∃ a', a.closed = false ∧
        a.place? (a.settings.slot k) (a.settings.dueAt (a.settings.slot k).timestamp now) v =
          some a' ∧ a.commit now k v = (.ok, a') := by
  unfold commit
  by_cases hc : a.closed = true
  · rw [if_pos hc]
    exact Or.inl ⟨_, Outcome.noConfusion, rfl⟩
  · rw [if_neg hc]
    dsimp only
    split
    · next a' hp => exact Or.inr ⟨a', by simpa using hc, hp, rfl⟩
    · exact Or.inl ⟨_, Outcome.noConfusion, rfl⟩

/-- A merge is its two first checks and then its critical section. -/
theorem merge_eq_commit [Add ν] [LT ν] [DecidableLT ν] (now : UInt64) (k : BucketKey) (v : Value ν)
    (a : Aggregator ν) :
    a.merge now k v =
      if a.closed then (.shuttingDown, a)
      else if a.settings.accepts k.timestamp now then a.commit now k v
      else (.invalidTimestamp, a) := by
  rw [merge_eq]
  by_cases hc : a.closed = true
  · rw [if_pos hc, if_pos hc]
  · have hcommit : a.commit now k v = _ := if_neg hc
    rw [if_neg hc, if_neg hc, hcommit]
    by_cases ha : a.settings.accepts k.timestamp now = true
    · rw [if_neg (by simpa using ha)]
      exact (if_pos ha).symm
    · rw [if_pos (by simpa using ha), if_neg ha]

section TakeShard

variable {a : Aggregator ν} (leaves : Stored ν → Bool)

theorem WF.takeShard (h : WF a) (i : Nat) : WF (a.takeShard leaves i).2 := by
  have hlen : (a.takeShard leaves i).2.shards.length = a.shards.length := List.length_set
  refine ⟨by rw [hlen]; exact h.nonempty, ?_, ?_⟩
  · intro j s hj b hb
    rw [shardOf_congr hlen]
    change (a.shards.set i _)[j]? = some s at hj
    by_cases hij : i = j
    · subst hij
      obtain ⟨hi, rfl⟩ : i < a.shards.length ∧ _ = s := by
        simpa [List.getElem?_set] using hj
      have hs : a.shards[i]? = some ((a.shards[i]?).getD []) := by simp [hi]
      exact h.placed hs b (List.mem_of_mem_filter hb)
    · rw [List.getElem?_set_ne hij] at hj
      exact h.placed hj b hb
  · intro s hs
    rcases List.mem_or_eq_of_mem_set hs with hs | rfl
    · exact h.distinct s hs
    · refine List.Nodup.sublist (List.filter_sublist.map _) ?_
      cases hi : a.shards[i]? with
      | none => exact List.nodup_nil
      | some s => exact h.distinct s (List.mem_of_getElem? hi)

theorem shardFor_takeShard (h : WF a) (i : Nat) (k : BucketKey) :
    (a.takeShard leaves i).2.shardFor k =
      if a.shardOf k = i then (a.shardFor k).filter fun b => !leaves b else a.shardFor k := by
  have hlen : (a.takeShard leaves i).2.shards.length = a.shards.length := List.length_set
  rw [shardFor, shardOf_congr hlen]
  change ((a.shards.set i _)[a.shardOf k]?).getD [] = _
  by_cases hi : a.shardOf k = i
  · subst hi
    rw [if_pos rfl, List.getElem?_set_self (h.shardOf_lt k)]
    rfl
  · rw [if_neg hi, List.getElem?_set_ne (Ne.symm hi)]
    rfl

theorem lookup_takeShard (h : WF a) (i : Nat) (k : BucketKey) :
    (a.takeShard leaves i).2.lookup k =
      if a.shardOf k = i then (a.lookup k).filter fun b => !leaves b else a.lookup k := by
  rw [lookup, shardFor_takeShard leaves h]
  split
  · rw [find?_key_filter (h.distinct _ (h.shardFor_mem k))]
    rfl
  · rfl

theorem filter_takeShard (h : WF a) {i : Nat} (hi : i < a.shards.length) (k : BucketKey) :
    ((a.takeShard leaves i).1.filter fun b => b.key = k) =
      if a.shardOf k = i then (((a.lookup k).filter leaves).map (release a.settings)).toList
      else [] := by
  have hkey : (fun b : Bucket ν => decide (b.key = k)) ∘ release a.settings =
      fun b : Stored ν => decide (b.key = k) := rfl
  have hs : a.shards[i]? = some a.shards[i] := List.getElem?_eq_getElem hi
  have hnodup : ((a.shards[i].filter leaves).map Stored.key).Nodup :=
    (h.distinct _ (List.getElem_mem hi)).sublist (List.filter_sublist.map _)
  change List.filter _ ((((a.shards[i]?).getD []).filter leaves).map _) = _
  rw [hs, Option.getD_some, List.filter_map, hkey, filter_key_eq hnodup,
    find?_key_filter (h.distinct _ (List.getElem_mem hi)), ← Option.toList_map]
  by_cases hk : a.shardOf k = i
  · subst hk
    rw [if_pos rfl, lookup, shardFor, hs, Option.getD_some]
  · rw [if_neg hk]
    cases hf : a.shards[i].find? fun b => b.key = k with
    | none => rfl
    | some b =>
      -- a bucket of the key would lie in the shard of the key
      have hb : b.key = k := by simpa using List.find?_some hf
      have hplace := h.placed hs b (List.mem_of_find?_eq_some hf)
      rw [hb] at hplace
      exact absurd hplace hk

end TakeShard

/-! ## Threads -/

/-- The merges and the drains that run at the same time. -/
structure Jobs (ν μ δ : Type) where
  key : μ → BucketKey
  value : μ → Value ν
  /-- Up to which time a drain takes what is due; `none` takes everything. -/
  until? : δ → Option UInt64

/-- Where a merge stands. -/
inductive MergeState where
  | waiting
  /-- It saw the aggregator open. -/
  | entered
  /-- It read the clock and found its own time inside the window. -/
  | timed (now : UInt64)
  | finished (o : Outcome)
  deriving DecidableEq

/-- Where a drain stands, and what it took so far. -/
inductive DrainState (ν : Type) where
  | waiting
  | running (next : Nat) (taken : List (Bucket ν))
  | finished (taken : List (Bucket ν))

/-- What a drain returns in the end, as far as it has come. -/
def DrainState.output : DrainState ν → List (Bucket ν)
  | .waiting => []
  | .running _ taken | .finished taken => taken

/-- The shared aggregator and all the threads. -/
structure World (ν μ δ : Type) where
  aggregator : Aggregator ν
  merges : μ → MergeState
  drains : δ → DrainState ν

/-- Whose step it is. -/
inductive Action (μ δ : Type) where
  /-- The first look of a merge at the switch. -/
  | enter (m : μ)
  | readClock (m : μ) (now : UInt64)
  | commit (m : μ)
  | drain (d : δ)
  | close

/-- The class of buckets that a drain takes. -/
def leavesAt : Option UInt64 → Stored ν → Bool
  | none, _ => true
  | some now, b => b.dueAt ≤ now

namespace World

variable {μ δ : Type} [DecidableEq μ] [DecidableEq δ]

/-- No thread has begun. -/
def start (s : Settings) (shards : Nat) : World ν μ δ :=
  ⟨empty s shards, fun _ => .waiting, fun _ => .waiting⟩

def setMerge (w : World ν μ δ) (m : μ) (s : MergeState) : World ν μ δ :=
  { w with merges := Function.update w.merges m s }

def setDrain (w : World ν μ δ) (d : δ) (s : DrainState ν) : World ν μ δ :=
  { w with drains := Function.update w.drains d s }

omit [DecidableEq δ] in
@[simp] theorem merges_setMerge (w : World ν μ δ) (m : μ) (s : MergeState) :
    (w.setMerge m s).merges m = s := Function.update_self ..

omit [DecidableEq δ] in
theorem merges_setMerge_ne (w : World ν μ δ) {m m' : μ} (h : m' ≠ m) (s : MergeState) :
    (w.setMerge m s).merges m' = w.merges m' := Function.update_of_ne h ..

omit [DecidableEq μ] in
@[simp] theorem drains_setDrain (w : World ν μ δ) (d : δ) (s : DrainState ν) :
    (w.setDrain d s).drains d = s := Function.update_self ..

omit [DecidableEq μ] in
theorem drains_setDrain_ne (w : World ν μ δ) {d d' : δ} (h : d' ≠ d) (s : DrainState ν) :
    (w.setDrain d s).drains d' = w.drains d' := Function.update_of_ne h ..

variable [Add ν] [LT ν] [DecidableLT ν] (jobs : Jobs ν μ δ)

/-- One step of one thread; a step that the thread cannot take does nothing. -/
def step (w : World ν μ δ) : Action μ δ → World ν μ δ
  | .enter m => match w.merges m with
    | .waiting => w.setMerge m (if w.aggregator.closed then .finished .shuttingDown else .entered)
    | _ => w
  | .readClock m now => match w.merges m with
    | .entered => w.setMerge m (if w.aggregator.settings.accepts (jobs.key m).timestamp now
        then .timed now else .finished .invalidTimestamp)
    | _ => w
  | .commit m => match w.merges m with
    | .timed now =>
      let (outcome, a) := w.aggregator.commit now (jobs.key m) (jobs.value m)
      { w.setMerge m (.finished outcome) with aggregator := a }
    | _ => w
  | .drain d => match w.drains d with
    | .waiting => w.setDrain d (.running 0 [])
    | .running i taken =>
      if i < w.aggregator.shards.length then
        let (more, a) := w.aggregator.takeShard (leavesAt (jobs.until? d)) i
        { w.setDrain d (.running (i + 1) (taken ++ more)) with aggregator := a }
      else w.setDrain d (.finished taken)
    | .finished _ => w
  | .close => { w with aggregator := w.aggregator.close }

/-- The world after some steps. -/
def run (w : World ν μ δ) (actions : List (Action μ δ)) : World ν μ δ :=
  actions.foldl (step jobs) w

/-- Everything that one step can do. -/
inductive Next (w : World ν μ δ) : World ν μ δ → Prop
  | idle : Next w w
  | close : Next w { w with aggregator := w.aggregator.close }
  | move (m : μ) (s : MergeState) (hm : w.merges m ≠ .finished .ok) (hs : s ≠ .finished .ok) :
      Next w (w.setMerge m s)
  | accept (m : μ) (now : UInt64) (a : Aggregator ν) (hm : w.merges m = .timed now)
      (hc : w.aggregator.closed = false)
      (hp : w.aggregator.place? (w.aggregator.settings.slot (jobs.key m))
        (w.aggregator.settings.dueAt (w.aggregator.settings.slot (jobs.key m)).timestamp now)
        (jobs.value m) = some a) :
      Next w { w.setMerge m (.finished .ok) with aggregator := a }
  | begin (d : δ) (hd : w.drains d = .waiting) : Next w (w.setDrain d (.running 0 []))
  | take (d : δ) (i : Nat) (taken : List (Bucket ν)) (hd : w.drains d = .running i taken)
      (hi : i < w.aggregator.shards.length) :
      Next w { w.setDrain d (.running (i + 1)
          (taken ++ (w.aggregator.takeShard (leavesAt (jobs.until? d)) i).1)) with
        aggregator := (w.aggregator.takeShard (leavesAt (jobs.until? d)) i).2 }
  | finish (d : δ) (i : Nat) (taken : List (Bucket ν)) (hd : w.drains d = .running i taken)
      (hi : w.aggregator.shards.length ≤ i) : Next w (w.setDrain d (.finished taken))

theorem next_step (w : World ν μ δ) (action : Action μ δ) : Next jobs w (w.step jobs action) := by
  cases action with
  | enter m =>
    rw [step]
    split
    · next hm =>
      refine .move m _ (by simp [hm]) ?_
      split <;> simp
    · exact .idle
  | readClock m now =>
    rw [step]
    split
    · next hm =>
      refine .move m _ (by simp [hm]) ?_
      split <;> simp
    · exact .idle
  | commit m =>
    rw [step]
    split
    · next now hm =>
      rcases commit_cases now (jobs.key m) (jobs.value m) w.aggregator with
        ⟨o, ho, he⟩ | ⟨a, hc, hp, he⟩ <;> rw [he]
      · exact .move m _ (by simp [hm]) (by simpa using ho)
      · exact .accept m now a hm hc hp
    · exact .idle
  | drain d =>
    rw [step]
    split
    · next hd => exact .begin d hd
    · next i taken hd =>
      split
      · next hi => exact .take d i taken hd hi
      · next hi => exact .finish d i taken hd (Nat.le_of_not_lt hi)
    · exact .idle
  | close => exact .close

/-! ## Steps without interruption -/

omit [DecidableEq δ] [Add ν] [LT ν] [DecidableLT ν] in
theorem setMerge_setMerge (w : World ν μ δ) (m : μ) (s s' : MergeState) :
    (w.setMerge m s).setMerge m s' = w.setMerge m s' := by
  rw [setMerge, setMerge, Function.update_idem]
  rfl

/-- The steps of a merge, one right after another, are a merge. -/
theorem run_merge (w : World ν μ δ) {m : μ} (hm : w.merges m = .waiting) (now : UInt64) :
    w.run jobs [.enter m, .readClock m now, .commit m] =
      { w.setMerge m (.finished (w.aggregator.merge now (jobs.key m) (jobs.value m)).1) with
        aggregator := (w.aggregator.merge now (jobs.key m) (jobs.value m)).2 } := by
  change step jobs (step jobs (step jobs w (.enter m)) (.readClock m now)) (.commit m) = _
  rw [merge_eq_commit, step, hm]
  dsimp only
  by_cases hc : w.aggregator.closed = true
  · rw [if_pos hc, if_pos hc, step, merges_setMerge, step, merges_setMerge]
    rfl
  · rw [if_neg hc, if_neg hc, step, merges_setMerge]
    dsimp only
    rw [setMerge_setMerge]
    change step jobs (w.setMerge m (if w.aggregator.settings.accepts (jobs.key m).timestamp now
      then .timed now else .finished .invalidTimestamp)) (.commit m) = _
    split
    · rw [step, merges_setMerge]
      dsimp only
      rw [setMerge_setMerge]
      rfl
    · rw [step, merges_setMerge]
      rfl

/-- The steps of a drain from some shard on, one right after another, pass over the rest. -/
theorem run_drain_from (d : δ) {leaves : Stored ν → Bool} (hleaves : leavesAt (jobs.until? d) = leaves)
    (done rest : List (Shard ν)) (taken : List (Bucket ν)) (w : World ν μ δ)
    (hw : w.drains d = .running done.length taken) (hs : w.aggregator.shards = done ++ rest) :
    w.run jobs (List.replicate (rest.length + 1) (.drain d)) =
      { w.setDrain d (.finished (taken ++
          rest.flatMap fun s => (s.take leaves).1.map (release w.aggregator.settings))) with
        aggregator := { w.aggregator with
          shards := done ++ rest.map fun s => (s.take leaves).2 } } := by
  -- the drain has passed `done`, so one step moves a shard from `rest` to it
  induction rest generalizing done taken w with
  | nil =>
    have hlen : ¬ done.length < w.aggregator.shards.length := by
      rw [hs, List.append_nil]
      exact Nat.lt_irrefl _
    change step jobs w (.drain d) = _
    rw [step, hw]
    dsimp only
    rw [if_neg hlen, List.flatMap_nil, List.append_nil, List.map_nil, ← hs]
    rfl
  | cons s rest ih =>
    have hlen : done.length < w.aggregator.shards.length := by
      rw [hs, List.length_append, List.length_cons]
      omega
    have hshard : w.aggregator.takeShard leaves done.length =
        ((s.take leaves).1.map (release w.aggregator.settings),
          { w.aggregator with shards := (done ++ [(s.take leaves).2]) ++ rest }) := by
      simp [takeShard, hs]
    have hstep : step jobs w (.drain d) =
        { w.setDrain d (.running (done ++ [(s.take leaves).2]).length
            (taken ++ (s.take leaves).1.map (release w.aggregator.settings))) with
          aggregator := { w.aggregator with shards := (done ++ [(s.take leaves).2]) ++ rest } } := by
      rw [step, hw]
      dsimp only
      rw [if_pos hlen, hleaves, hshard, List.length_append, List.length_singleton]
    rw [List.length_cons, List.replicate_succ]
    change World.run jobs (step jobs w (.drain d)) _ = _
    rw [ih (done ++ [(s.take leaves).2])
        (taken ++ (s.take leaves).1.map (release w.aggregator.settings)) _
        (by rw [hstep]; exact drains_setDrain ..) (by rw [hstep]), hstep]
    simp [setDrain]

/-- The steps of a drain, one right after another, are a drain. -/
theorem run_drain (w : World ν μ δ) {d : δ} (hd : w.drains d = .waiting) :
    w.run jobs (List.replicate (w.aggregator.shards.length + 2) (.drain d)) =
      { w.setDrain d (.finished (w.aggregator.drain (leavesAt (jobs.until? d))).1) with
        aggregator := (w.aggregator.drain (leavesAt (jobs.until? d))).2 } := by
  have hbegin : step jobs w (.drain d) = w.setDrain d (.running 0 []) := by
    rw [step, hd]
  rw [List.replicate_succ]
  change World.run jobs (step jobs w (.drain d)) _ = _
  have hrest := run_drain_from jobs d rfl [] w.aggregator.shards [] (w.setDrain d (.running 0 []))
    (drains_setDrain ..) rfl
  rw [hbegin, hrest]
  simp [setDrain, Aggregator.drain]

/-! ## The books -/

section Books

variable {jobs} {s : Settings} {w w' : World ν μ δ} {books : BucketKey → Ledger μ (δ × Bucket ν)}

variable (jobs s) in
/-- For every key there are books: they balance, they name each accepted merge once, and they list
what each drain takes. -/
structure Accounted (w : World ν μ δ) (books : BucketKey → Ledger μ (δ × Bucket ν)) : Prop where
  settings : w.aggregator.settings = s
  wf : WF w.aggregator
  balanced : ∀ k, Balanced jobs.value (fun r => r.2.value) (books k)
    ((w.aggregator.lookup k).map Stored.value)
  counted : ∀ k m, (books k).accepted.count m =
    if w.merges m = .finished .ok ∧ s.slot (jobs.key m) = k then 1 else 0
  outputs : ∀ k d, ((w.drains d).output.filter fun b => b.key = k) =
    ((books k).returned.filter fun r => r.1 = d).map Prod.snd

namespace Accounted

theorem start (shards : Nat) : Accounted jobs s (start s shards) fun _ => Ledger.empty := by
  refine ⟨rfl, WF.empty s shards, fun k => ?_, fun k m => ?_, fun k d => rfl⟩
  · change Balanced _ _ _ (((Aggregator.empty s shards : Aggregator ν).lookup k).map _)
    rw [lookup_empty]
    exact .empty
  · rw [if_neg fun h => nomatch h.1]
    rfl

/-- A step that accepts nothing and takes nothing leaves the books as they are. -/
theorem quiet (h : Accounted jobs s w books) (hwf : WF w'.aggregator)
    (hs : w'.aggregator.settings = w.aggregator.settings)
    (hl : ∀ k, w'.aggregator.lookup k = w.aggregator.lookup k)
    (hm : ∀ m, w'.merges m = .finished .ok ↔ w.merges m = .finished .ok)
    (hd : ∀ d, (w'.drains d).output = (w.drains d).output) : Accounted jobs s w' books := by
  refine ⟨hs.trans h.settings, hwf, fun k => ?_, fun k m => ?_, fun k d => ?_⟩
  · rw [hl]
    exact h.balanced k
  · rw [h.counted]
    simp only [hm]
  · rw [hd]
    exact h.outputs k d

theorem move (h : Accounted jobs s w books) {m : μ} {state : MergeState}
    (hm : w.merges m ≠ .finished .ok) (hs : state ≠ .finished .ok) :
    Accounted jobs s (w.setMerge m state) books := by
  refine h.quiet h.wf rfl (fun _ => rfl) (fun m' => ?_) fun _ => rfl
  by_cases he : m' = m
  · subst he
    simp [hm, hs]
  · rw [merges_setMerge_ne w he]

theorem setDrain (h : Accounted jobs s w books) {d : δ} {state : DrainState ν}
    (hs : state.output = (w.drains d).output) : Accounted jobs s (w.setDrain d state) books := by
  refine h.quiet h.wf rfl (fun _ => rfl) (fun _ => Iff.rfl) fun d' => ?_
  by_cases he : d' = d
  · subst he
    rw [drains_setDrain, hs]
  · rw [drains_setDrain_ne w he]

theorem accept (h : Accounted jobs s w books) {m : μ} {now due : UInt64} {a : Aggregator ν}
    (hm : w.merges m = .timed now)
    (hp : w.aggregator.place? (s.slot (jobs.key m)) due (jobs.value m) = some a) :
    Accounted jobs s { w.setMerge m (.finished .ok) with aggregator := a } fun k =>
      (books k).recordAll (if s.slot (jobs.key m) = k then [.accepted m] else []) := by
  refine ⟨(place?_frame hp).1.trans h.settings, h.wf.place hp,
    fun k => (h.balanced k).step (place_moves h.wf m hp k), fun k m' => ?_, fun k d => ?_⟩
  · have hold := h.counted k m'
    rw [Ledger.accepted_recordAll, List.count_append, hold]
    by_cases he : m' = m
    · subst he
      by_cases hk : s.slot (jobs.key m') = k <;> simp [setMerge, hk, hm]
    · by_cases hk : s.slot (jobs.key m) = k <;> simp [setMerge, he, hk, Ne.symm he]
  · have hold := h.outputs k d
    rw [Ledger.returned_recordAll]
    by_cases hk : s.slot (jobs.key m) = k <;>
      simpa [setMerge, hk, List.filterMap_cons] using hold

theorem take (h : Accounted jobs s w books) {d : δ} {i : Nat} {taken : List (Bucket ν)}
    (leaves : Stored ν → Bool) (hd : w.drains d = .running i taken)
    (hi : i < w.aggregator.shards.length) :
    Accounted jobs s { w.setDrain d (.running (i + 1) (taken ++ (w.aggregator.takeShard leaves i).1))
        with aggregator := (w.aggregator.takeShard leaves i).2 } fun k =>
      (books k).recordAll (((w.aggregator.takeShard leaves i).1.filter fun b => b.key = k).map
        fun b => .returned (d, b)) := by
  refine ⟨h.settings, h.wf.takeShard leaves i, fun k => (h.balanced k).step ?_, fun k m => ?_,
    fun k d' => ?_⟩
  · rw [filter_takeShard leaves h.wf hi, lookup_takeShard leaves h.wf]
    split
    · exact leave_moves _ leaves (fun b => (d, b)) (fun _ => rfl) _
    · exact .still _
  · have hnone : ∀ bs : List (Bucket ν),
        (bs.map fun b => (.returned (d, b) : Movement μ (δ × Bucket ν))).filterMap
          Movement.accepted? = [] := by
      intro bs
      simp [List.filterMap_map, Function.comp_def]
    rw [Ledger.accepted_recordAll, hnone, List.append_nil]
    exact h.counted k m
  · have hold := h.outputs k d'
    rw [Ledger.returned_recordAll, List.filterMap_map, List.filter_append, List.map_append, ← hold]
    by_cases he : d' = d
    · subst he
      simp [World.setDrain, hd, DrainState.output, Function.comp_def, List.filter_map]
    · simp [World.setDrain, he, Ne.symm he, Function.comp_def, List.filter_map]

/-- **Every step can be booked.** -/
theorem next (h : Accounted jobs s w books) (hn : Next jobs w w') :
    ∃ books', Accounted jobs s w' books' := by
  cases hn with
  | idle => exact ⟨_, h⟩
  | close =>
    exact ⟨_, h.quiet h.wf.close rfl (fun _ => rfl) (fun _ => Iff.rfl) fun _ => rfl⟩
  | move m state hm hs => exact ⟨_, h.move hm hs⟩
  | accept m now a hm hc hp =>
    rw [h.settings] at hp
    exact ⟨_, h.accept hm hp⟩
  | begin d hd => exact ⟨_, h.setDrain (by rw [hd]; rfl)⟩
  | take d i taken hd hi => exact ⟨_, h.take _ hd hi⟩
  | finish d i taken hd hi => exact ⟨_, h.setDrain (by rw [hd]; rfl)⟩

theorem run (h : Accounted jobs s w books) (actions : List (Action μ δ)) :
    ∃ books', Accounted jobs s (w.run jobs actions) books' := by
  induction actions generalizing w books with
  | nil => exact ⟨books, h⟩
  | cons action rest ih =>
    obtain ⟨books', h'⟩ := h.next (next_step jobs w action)
    exact ih h'

end Accounted

/-! ## Behind the last drain -/

/-- The shards that a drain has left behind. -/
def DrainState.passed : DrainState ν → Nat → Prop
  | .waiting, _ => False
  | .running next _, i => i < next
  | .finished _, _ => True

/-- The aggregator is closed, and a drain leaves empty shards behind. -/
structure Swept (d : δ) (w : World ν μ δ) : Prop where
  closed : w.aggregator.closed = true
  empty : ∀ i shard, w.aggregator.shards[i]? = some shard → DrainState.passed (w.drains d) i →
    shard = []

namespace Swept

variable {d : δ}

omit [DecidableEq μ] [Add ν] [LT ν] [DecidableLT ν] in
theorem setDrain (h : Swept d w) {d' : δ} {state : DrainState ν}
    (hs : d' = d → ∀ i < w.aggregator.shards.length,
      DrainState.passed state i → DrainState.passed (w.drains d) i) :
    Swept d (w.setDrain d' state) := by
  refine ⟨h.closed, fun i shard hi hp => h.empty i shard hi ?_⟩
  have hlt : i < w.aggregator.shards.length := (List.getElem?_eq_some_iff.mp hi).1
  by_cases he : d = d'
  · subst he
    rw [drains_setDrain] at hp
    exact hs rfl i hlt hp
  · rw [drains_setDrain_ne w he] at hp
    exact hp

/-- **A step leaves the shards empty** behind a drain that takes everything. -/
theorem next (hd : jobs.until? d = none) (h : Swept d w) (hn : Next jobs w w') : Swept d w' := by
  cases hn with
  | idle => exact h
  | close => exact ⟨rfl, h.empty⟩
  | move m state hm hs => exact ⟨h.closed, h.empty⟩
  | accept m now a hm hc hp =>
    rw [h.closed] at hc
    cases hc
  | begin d' hw => exact h.setDrain fun _ _ _ hp => absurd hp (Nat.not_lt_zero _)
  | take d' i taken hw hi =>
    refine ⟨h.closed, fun j shard hj hp => ?_⟩
    change (w.aggregator.shards.set i _)[j]? = some shard at hj
    change DrainState.passed ((w.setDrain d' _).drains d) j at hp
    -- the shard was passed before, or it is the one that this step passes
    have hpast : DrainState.passed (w.drains d) j ∨ (d' = d ∧ j = i) := by
      by_cases he : d = d'
      · subst he
        rw [drains_setDrain] at hp
        rcases Nat.lt_succ_iff_lt_or_eq.mp hp with hlt | heq
        · rw [hw]
          exact Or.inl hlt
        · exact Or.inr ⟨rfl, heq⟩
      · rw [drains_setDrain_ne w he] at hp
        exact Or.inl hp
    by_cases hij : i = j
    · subst hij
      have hs : w.aggregator.shards[i]? = some w.aggregator.shards[i] :=
        List.getElem?_eq_getElem hi
      rw [List.getElem?_set_self hi, hs, Option.getD_some] at hj
      obtain rfl := Option.some.inj hj
      rcases hpast with hpast | ⟨rfl, -⟩
      · rw [h.empty i _ hs hpast]
        rfl
      · simp [hd, leavesAt]
    · rw [List.getElem?_set_ne hij] at hj
      rcases hpast with hpast | ⟨-, heq⟩
      · exact h.empty j shard hj hpast
      · exact absurd heq.symm hij
  | finish d' i taken hw hi =>
    refine h.setDrain fun he j hj _ => ?_
    subst he
    rw [hw]
    exact Nat.lt_of_lt_of_le hj hi

theorem run (hd : jobs.until? d = none) (h : Swept d w) (actions : List (Action μ δ)) :
    Swept d (w.run jobs actions) := by
  induction actions generalizing w with
  | nil => exact h
  | cons action rest ih => exact ih (h.next hd (next_step jobs w action))

end Swept

/-- The aggregator is closed and holds nothing. -/
structure Drained (w : World ν μ δ) : Prop where
  closed : w.aggregator.closed = true
  empty : ∀ shard ∈ w.aggregator.shards, shard = []

namespace Drained

omit [DecidableEq μ] [DecidableEq δ] [Add ν] [LT ν] [DecidableLT ν] in
theorem shardFor_eq_nil (h : Drained w) (k : BucketKey) : w.aggregator.shardFor k = [] := by
  unfold shardFor
  cases hs : w.aggregator.shards[w.aggregator.shardOf k]? with
  | none => rfl
  | some shard => exact h.empty shard (List.mem_of_getElem? hs)

omit [DecidableEq μ] [DecidableEq δ] [Add ν] [LT ν] [DecidableLT ν] in
theorem takeShard (h : Drained w) (leaves : Stored ν → Bool) (i : Nat) :
    w.aggregator.takeShard leaves i = ([], w.aggregator) := by
  have hnil : (w.aggregator.shards[i]?).getD [] = [] := by
    cases hs : w.aggregator.shards[i]? with
    | none => rfl
    | some shard => exact h.empty shard (List.mem_of_getElem? hs)
  have hset : w.aggregator.shards.set i [] = w.aggregator.shards := by
    refine List.ext_getElem? fun j => ?_
    rw [List.getElem?_set]
    split
    · next hij =>
      subst hij
      split
      · next hi => rw [List.getElem?_eq_getElem hi, h.empty _ (List.getElem_mem hi)]
      · next hi => rw [List.getElem?_eq_none (Nat.le_of_not_lt hi)]
    · rfl
  rw [Aggregator.takeShard, hnil]
  simp only [Shard.take, List.filter_nil, List.map_nil, hset]

/-- Nothing comes in and nothing goes out any more, so the books stay as they are. -/
theorem next (h : Drained w) (hn : Next jobs w w') (hb : Accounted jobs s w books) :
    Drained w' ∧ Accounted jobs s w' books := by
  cases hn with
  | idle => exact ⟨h, hb⟩
  | close =>
    refine ⟨⟨rfl, h.empty⟩, ?_⟩
    exact hb.quiet hb.wf.close rfl (fun _ => rfl) (fun _ => Iff.rfl) fun _ => rfl
  | move m state hm hs => exact ⟨⟨h.closed, h.empty⟩, hb.move hm hs⟩
  | accept m now a hm hc hp =>
    rw [h.closed] at hc
    cases hc
  | begin d hd => exact ⟨⟨h.closed, h.empty⟩, hb.setDrain (by rw [hd]; rfl)⟩
  | take d i taken hd hi =>
    rw [h.takeShard, List.append_nil]
    exact ⟨⟨h.closed, h.empty⟩, hb.setDrain (by rw [hd]; rfl)⟩
  | finish d i taken hd hi =>
    exact ⟨⟨h.closed, h.empty⟩, hb.setDrain (by rw [hd]; rfl)⟩

theorem run (h : Drained w) (hb : Accounted jobs s w books) (actions : List (Action μ δ)) :
    Drained (w.run jobs actions) ∧ Accounted jobs s (w.run jobs actions) books := by
  induction actions generalizing w with
  | nil => exact ⟨h, hb⟩
  | cons action rest ih =>
    obtain ⟨h', hb'⟩ := h.next (next_step jobs w action) hb
    exact ih h' hb'

end Drained

variable (jobs s) in
/-- Nothing is stored, nothing more is accepted, and every accepted value went into one bucket of one
drain. -/
structure Settled (w : World ν μ δ) (books : BucketKey → Ledger μ (δ × Bucket ν)) : Prop where
  empty : ∀ shard ∈ w.aggregator.shards, shard = []
  refuses : ∀ m now, w.merges m = .timed now →
    (w.step jobs (.commit m)).merges m = .finished .shuttingDown
  /-- The buckets of a key that a drain took are those of the books, in order. -/
  outputs : ∀ k d, ((w.drains d).output.filter fun b => b.key = k) =
    ((books k).groups.filter fun g => g.2.1 = d).map fun g => g.2.2
  key : ∀ k, ∀ g ∈ (books k).groups, g.2.2.key = k
  /-- A bucket is its group of merges, from left to right. -/
  merged : ∀ k, ∀ g ∈ (books k).groups,
    g.1 ≠ [] ∧ Value.mergeAll? (g.1.map jobs.value) = some g.2.2.value
  /-- An accepted merge stands in one group of its own key, and there once. -/
  once : ∀ m, w.merges m = .finished .ok →
    ((books (s.slot (jobs.key m))).groups.flatMap Prod.fst).count m = 1
  /-- No group has a merge that was not accepted or has another key. -/
  only : ∀ k, ∀ g ∈ (books k).groups, ∀ m ∈ g.1,
    w.merges m = .finished .ok ∧ s.slot (jobs.key m) = k

theorem Drained.settled (h : Drained w) (hb : Accounted jobs s w books) :
    Settled jobs s w books := by
  -- nothing is stored, so no key has accepted values that were not taken
  have hsince : ∀ k, (books k).since = [] := by
    intro k
    refine (hb.balanced k).since_nil ?_
    rw [lookup, h.shardFor_eq_nil]
    rfl
  have haccepted : ∀ k, (books k).accepted = (books k).groups.flatMap Prod.fst := by
    intro k
    rw [Ledger.accepted, hsince, List.append_nil]
  have houtputs : ∀ k d, ((w.drains d).output.filter fun b => b.key = k) =
      ((books k).groups.filter fun g => g.2.1 = d).map fun g => g.2.2 := by
    intro k d
    rw [hb.outputs, Ledger.returned, List.filter_map, List.map_map]
    rfl
  refine ⟨h.empty, fun m now hm => ?_, houtputs, fun k g hg => ?_, fun k g hg => ?_,
    fun m hm => ?_, fun k g hg m hm => ?_⟩
  · rw [step, hm]
    simp only [commit, h.closed, if_true]
    exact merges_setMerge w m _
  · have hout : g.2.2 ∈ (w.drains g.2.1).output.filter fun b => b.key = k := by
      rw [houtputs]
      exact List.mem_map.mpr ⟨g, List.mem_filter.mpr ⟨hg, by simp⟩, rfl⟩
    simpa using (List.mem_filter.mp hout).2
  · exact ⟨(hb.balanced k).group_ne_nil hg, (hb.balanced k).group g hg⟩
  · rw [← haccepted, hb.counted, if_pos ⟨hm, rfl⟩]
  · have hin : m ∈ (books k).accepted := by
      rw [haccepted]
      exact List.mem_flatMap.mpr ⟨g, hg, hm⟩
    have hcount := hb.counted k m
    by_contra hne
    rw [if_neg hne] at hcount
    exact List.count_eq_zero.mp hcount hin

end Books

variable {jobs}

/-- **Closing and then draining loses nothing**, whatever merges and drains run at the same time and
whatever the order of their steps: once a drain of everything that began on the closed aggregator is
through, there are books that settle every later world. -/
theorem close_drain_settles (s : Settings) (shards : Nat) (before between : List (Action μ δ))
    (d : δ) (taken : List (Bucket ν))
    (hclosed : ((start s shards).run jobs before).aggregator.closed = true)
    (hwaiting : ((start s shards).run jobs before).drains d = .waiting)
    (hall : jobs.until? d = none)
    (hdone : (((start s shards).run jobs before).run jobs between).drains d = .finished taken) :
    ∃ books, ∀ after,
      Settled jobs s ((((start s shards).run jobs before).run jobs between).run jobs after) books := by
  have h₀ : Accounted jobs s (start s shards) fun _ => Ledger.empty := .start shards
  obtain ⟨books₁, h₁⟩ := h₀.run before
  obtain ⟨books, h₂⟩ := h₁.run between
  -- the drain has not begun when the aggregator is closed, so it has passed no shard
  have hswept : Swept d ((start s shards).run jobs before) := by
    refine ⟨hclosed, fun i shard _ hp => ?_⟩
    rw [hwaiting] at hp
    exact hp.elim
  have hbehind := hswept.run hall between
  have hdrained : Drained (((start s shards).run jobs before).run jobs between) := by
    refine ⟨hbehind.closed, fun shard hshard => ?_⟩
    obtain ⟨i, hi⟩ := List.getElem?_of_mem hshard
    refine hbehind.empty i shard hi ?_
    rw [hdone]
    trivial
  refine ⟨books, fun after => ?_⟩
  obtain ⟨h₃, hb₃⟩ := hdrained.run h₂ after
  exact h₃.settled hb₃

/-- One merge gets in before the aggregator is closed, another waits inside its window and is
refused, and a drain takes the first. -/
theorem close_drain_settles_two_merges :
    let jobs : Jobs Nat Bool Unit := ⟨fun _ => ⟨⟨1, 2⟩, [], [], 100⟩, fun _ => .counter 5, fun _ => none⟩
    let before : List (Action Bool Unit) := [.enter true, .readClock true 100, .commit true,
      .enter false, .readClock false 100, .close]
    ∃ books, ∀ after,
      Settled jobs {} ((((start {} 1).run jobs before).run jobs
        [.drain (), .drain (), .drain ()]).run jobs after) books :=
  close_drain_settles {} 1 _ _ () _ rfl rfl rfl rfl

end World

end Telemetry.Aggregator

import Telemetry.Metric.Value

/-!
# The ledger of a key

Two things can happen to the bucket of a key: a value is accepted into it, or it is returned and
gone.  The ledger cuts the accepted values at the returns.  `Balanced` ties it to what is stored:
every returned bucket is the left fold of its own group, and the stored one is the left fold of the
values accepted since the last return.  One step of any machine that follows `Moves` keeps that
(`Balanced.step`), so a machine is balanced as soon as each of its steps moves every key that way.
-/

namespace Telemetry

namespace Value

variable {ν : Type} [Add ν] [LT ν] [DecidableLT ν]

/-- The values merged from left to right; `none` without a value or if two kinds meet. -/
def mergeAll? : List (Value ν) → Option (Value ν)
  | [] => none
  | v :: rest => rest.foldlM merge? v

theorem mergeAll?_concat {vs : List (Value ν)} {u : Value ν} (h : mergeAll? vs = some u)
    (v : Value ν) : mergeAll? (vs ++ [v]) = u.merge? v := by
  cases vs with
  | nil => cases h
  | cons w rest =>
    have hrest : rest.foldlM merge? w = some u := h
    change (rest ++ [v]).foldlM merge? w = u.merge? v
    rw [List.foldlM_append, hrest]
    simp

/-- The readings of a distribution; no other kind keeps them. -/
def readings : Value ν → List ν
  | .distribution xs => xs
  | _ => []

omit [LT ν] [DecidableLT ν] [Add ν] in
@[simp] theorem readings_distribution (xs : List ν) : readings (.distribution xs) = xs := rfl

/-- Merging appends the readings. -/
theorem readings_merge? {v w u : Value ν} (h : v.merge? w = some u) :
    u.readings = v.readings ++ w.readings := by
  cases v <;> cases w <;> simp only [merge?, Option.some.injEq, reduceCtorEq] at h <;> subst h <;> rfl

theorem readings_foldlM {u w : Value ν} {vs : List (Value ν)} (h : vs.foldlM merge? u = some w) :
    w.readings = u.readings ++ vs.flatMap readings := by
  induction vs generalizing u with
  | nil =>
    obtain rfl := Option.some.inj h
    simp
  | cons v rest ih =>
    rw [List.foldlM_cons] at h
    obtain ⟨x, hx, hrest⟩ := Option.bind_eq_some_iff.mp h
    rw [ih hrest, readings_merge? hx, List.flatMap_cons, List.append_assoc]

/-- What is merged keeps every reading, in order. -/
theorem readings_mergeAll? {vs : List (Value ν)} {u : Value ν} (h : mergeAll? vs = some u) :
    u.readings = vs.flatMap readings := by
  cases vs with
  | nil => cases h
  | cons v rest => rw [List.flatMap_cons, readings_foldlM (h : rest.foldlM merge? v = some u)]

end Value

/-! ## Movements and ledgers -/

/-- What happens to the bucket of one key. -/
inductive Movement (α β : Type) where
  | accepted (a : α)
  | returned (b : β)

namespace Movement

variable {α β : Type}

@[simp] def accepted? : Movement α β → Option α
  | .accepted a => some a
  | .returned _ => none

@[simp] def returned? : Movement α β → Option β
  | .accepted _ => none
  | .returned b => some b

end Movement

/-- The accepted values of a key, cut at the returns: a group with each return, and the values
accepted since the last one. -/
structure Ledger (α β : Type) where
  groups : List (List α × β)
  since : List α

namespace Ledger

variable {α β ν : Type}

def empty : Ledger α β := ⟨[], []⟩

def record (l : Ledger α β) : Movement α β → Ledger α β
  | .accepted a => { l with since := l.since ++ [a] }
  | .returned b => ⟨l.groups ++ [(l.since, b)], []⟩

def recordAll (l : Ledger α β) (ms : List (Movement α β)) : Ledger α β := ms.foldl record l

/-- Everything that was accepted, in order. -/
def accepted (l : Ledger α β) : List α := l.groups.flatMap Prod.fst ++ l.since

/-- Everything that was returned, in order. -/
def returned (l : Ledger α β) : List β := l.groups.map Prod.snd

theorem accepted_recordAll (l : Ledger α β) (ms : List (Movement α β)) :
    (l.recordAll ms).accepted = l.accepted ++ ms.filterMap Movement.accepted? := by
  induction ms generalizing l with
  | nil => simp [recordAll]
  | cons m rest ih =>
    change ((l.record m).recordAll rest).accepted = _
    rw [ih]
    cases m <;> simp [record, accepted, List.filterMap_cons]

theorem returned_recordAll (l : Ledger α β) (ms : List (Movement α β)) :
    (l.recordAll ms).returned = l.returned ++ ms.filterMap Movement.returned? := by
  induction ms generalizing l with
  | nil => simp [recordAll]
  | cons m rest ih =>
    change ((l.record m).recordAll rest).returned = _
    rw [ih]
    cases m <;> simp [record, returned, List.filterMap_cons]

end Ledger

/-! ## Balance -/

section Balance

variable {α β ν : Type} [Add ν] [LT ν] [DecidableLT ν] (value : α → Value ν) (content : β → Value ν)

/-- How the stored value of a key moves in one step: not at all, by one accepted value, or away. -/
inductive Moves : Option (Value ν) → List (Movement α β) → Option (Value ν) → Prop
  | still (stored : Option (Value ν)) : Moves stored [] stored
  | first (a : α) : Moves none [.accepted a] (some (value a))
  | more {u w : Value ν} (a : α) (h : u.merge? (value a) = some w) :
      Moves (some u) [.accepted a] (some w)
  | leave (b : β) : Moves (some (content b)) [.returned b] none

/-- A ledger agrees with what was returned and with what is stored. -/
structure Balanced (l : Ledger α β) (stored : Option (Value ν)) : Prop where
  group : ∀ g ∈ l.groups, Value.mergeAll? (g.1.map value) = some (content g.2)
  since : Value.mergeAll? (l.since.map value) = stored
  since_nil : stored = none → l.since = []

namespace Balanced

variable {value content} {l : Ledger α β} {stored stored' : Option (Value ν)}

theorem empty : Balanced value content (Ledger.empty : Ledger α β) none := by
  refine ⟨?_, rfl, fun _ => rfl⟩
  intro g hg
  cases hg

/-- **One step keeps the balance.** -/
theorem step {ms : List (Movement α β)} (h : Balanced value content l stored)
    (hm : Moves value content stored ms stored') :
    Balanced value content (l.recordAll ms) stored' := by
  cases hm with
  | still => exact h
  | first a =>
    have hnil := h.since_nil rfl
    refine ⟨h.group, ?_, fun hn => nomatch hn⟩
    simp [Ledger.recordAll, Ledger.record, hnil, Value.mergeAll?]
  | more a hw =>
    refine ⟨h.group, ?_, fun hn => nomatch hn⟩
    simp only [Ledger.recordAll, List.foldl_cons, List.foldl_nil, Ledger.record, List.map_append,
      List.map_cons, List.map_nil]
    rw [Value.mergeAll?_concat h.since, hw]
  | leave b =>
    refine ⟨?_, rfl, fun _ => rfl⟩
    intro g hg
    rcases List.mem_append.mp hg with hg | hg
    · exact h.group g hg
    · -- the new group is what was accepted since the last return
      obtain rfl := List.mem_singleton.mp hg
      exact h.since

theorem group_ne_nil (h : Balanced value content l stored) {g : List α × β} (hg : g ∈ l.groups) :
    g.1 ≠ [] := by
  intro hnil
  have hmerge := h.group g hg
  rw [hnil] at hmerge
  cases hmerge

theorem since_eq_nil_iff (h : Balanced value content l stored) : l.since = [] ↔ stored = none := by
  constructor
  · intro hnil
    rw [← h.since, hnil]
    rfl
  · exact h.since_nil

/-- The readings that were returned and those that are stored make up those that were accepted. -/
theorem readings (h : Balanced value content l stored) :
    l.returned.flatMap (fun b => (content b).readings) ++
        stored.elim [] Value.readings =
      l.accepted.flatMap fun a => (value a).readings := by
  -- the induction forgets that the groups are those of the ledger
  have hgroups : ∀ gs : List (List α × β),
      (∀ g ∈ gs, Value.mergeAll? (g.1.map value) = some (content g.2)) →
      (gs.map Prod.snd).flatMap (fun b => (content b).readings) =
        (gs.flatMap Prod.fst).flatMap fun a => (value a).readings := by
    intro gs hgs
    induction gs with
    | nil => rfl
    | cons g rest ih =>
      have hg := Value.readings_mergeAll? (hgs g List.mem_cons_self)
      have hrest := ih fun g' hg' => hgs g' (List.mem_cons_of_mem _ hg')
      rw [List.map_cons, List.flatMap_cons, hg, hrest, List.flatMap_cons, List.flatMap_append,
        List.flatMap_map]
  have hsince : stored.elim [] Value.readings = l.since.flatMap fun a => (value a).readings := by
    cases hs : stored with
    | none =>
      rw [h.since_nil hs]
      rfl
    | some u =>
      have hu := Value.readings_mergeAll? (h.since.trans hs)
      rw [List.flatMap_map] at hu
      exact hu
  rw [Ledger.returned, Ledger.accepted, hgroups l.groups h.group, hsince, List.flatMap_append]

end Balanced

end Balance

end Telemetry

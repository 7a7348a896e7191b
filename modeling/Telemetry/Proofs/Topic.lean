import Telemetry.Proofs.Ordered
import Telemetry.Topic

/-!
# Topics that are found

The lookup as it is carried out (`seek`) divides by the number of shards, finds the first entry behind the
shard and steps back from it; both the division and the step can go wrong.  In a mapping in key order
what it finds is the last entry at or before the shard (`seek_of_isSharded`).  Validation accepts the
mappings for which it never goes wrong and in which no entry is there for nothing, and no others
(`fault?_eq_none_iff`).
-/

namespace Telemetry.Topic

variable {t : Topic} {shards shard org : UInt64} {mapping : Entries UInt64 Bytes}

/-! ## The lookup step by step -/

/-- How a lookup goes wrong. -/
inductive Misstep where
  | zeroDivisor
  | beforeFirst
  | pastLast
  deriving DecidableEq, Repr

/-- The remainder by a number other than 0. -/
def remainder (a b : UInt64) : Except Misstep UInt64 :=
  if b = 0 then .error .zeroDivisor else .ok (a % b)

/-- The place of the first entry behind a shard, past the last one if there is none. -/
def firstBehind (shard : UInt64) (mapping : Entries UInt64 Bytes) : Nat :=
  mapping.findIdx fun e => shard < e.1

/-- The place before another. -/
def stepBack : Nat → Except Misstep Nat
  | 0 => .error .beforeFirst
  | i + 1 => .ok i

/-- The entry at a place. -/
def entryAt (mapping : Entries UInt64 Bytes) (i : Nat) : Except Misstep (UInt64 × Bytes) :=
  match mapping[i]? with
  | some e => .ok e
  | none => .error .pastLast

/-- The topic of an organization, whether the topic was validated or not. -/
def seek (t : Topic) (org : UInt64) : Except Misstep Bytes := do
  if t.isSharded then
    let shard ← remainder org t.shards
    let i ← stepBack (firstBehind shard t.mapping)
    let e ← entryAt t.mapping i
    return e.2
  else return t.name

/-- The entries up to a shard are those before the first one behind it. -/
theorem upTo_eq_take (h : Ordered.Sorted mapping) (shard : UInt64) :
    upTo shard mapping = mapping.take (firstBehind shard mapping) := by
  induction mapping with
  | nil => rfl
  | cons e rest ih =>
    obtain ⟨hhead, hrest⟩ := List.pairwise_cons.mp h
    unfold upTo firstBehind at ih ⊢
    rw [List.findIdx_cons]
    by_cases hlt : shard < e.1
    · rw [decide_eq_true hlt, cond_true, List.take_zero, List.filter_eq_nil_iff]
      intro e' he'
      have hbehind : shard < e'.1 := by
        rcases List.mem_cons.mp he' with rfl | he'
        · exact hlt
        · exact UInt64.lt_trans hlt (hhead e' he')
      simpa using hbehind
    · rw [decide_eq_false hlt, cond_false, List.take_succ_cons, List.filter_cons_of_pos, ih hrest]
      simpa using hlt

/-- **The lookup finds the last entry up to the shard**, and goes wrong only if there is none. -/
theorem seek_of_isSharded (h : Ordered.Sorted t.mapping) (hsharded : t.isSharded = true)
    (org : UInt64) : t.seek org = match (upTo (org % t.shards) t.mapping).getLast? with
      | some e => .ok e.2
      | none => .error .beforeFirst := by
  have hshards : t.shards ≠ 0 := by
    intro hzero
    simp [isSharded, hzero] at hsharded
  have hle : firstBehind (org % t.shards) t.mapping ≤ t.mapping.length := List.findIdx_le_length
  rw [seek, if_pos hsharded, remainder, if_neg hshards, upTo_eq_take h]
  change (stepBack (firstBehind (org % t.shards) t.mapping) >>= fun i => _) = _
  cases hplace : firstBehind (org % t.shards) t.mapping with
  | zero => rfl
  | succ i =>
    have hi : i < t.mapping.length := by omega
    have hlast : (t.mapping.take (i + 1)).getLast? = some t.mapping[i] := by
      simp [List.getLast?_take, hi]
    change (entryAt t.mapping i >>= fun e => _) = _
    rw [hlast, entryAt, List.getElem?_eq_getElem hi]
    rfl

theorem seek_of_not_isSharded (hsharded : t.isSharded = false) (org : UInt64) :
    t.seek org = .ok t.name := by
  rw [seek, hsharded]
  rfl

/-- A validated topic is found. -/
theorem seek_eq_ok (h : Ordered.Sorted t.mapping) (hf : t.fault? = none) (org : UInt64) :
    t.seek org = .ok ((⟨t, hf⟩ : Router).topicFor org) := by
  cases hsharded : t.isSharded with
  | false => simp [seek_of_not_isSharded hsharded, Router.topicFor, hsharded]
  | true =>
    have hmapping : mappingFault? t.shards t.mapping = none := by simpa [fault?, hsharded] using hf
    have hsome := List.getLast?_eq_some_getLast (upTo_ne_nil hmapping (org % t.shards))
    rw [seek_of_isSharded h hsharded, hsome]
    simp [Router.topicFor, hsharded]

/-! ## Entries and organizations -/

/-- The entry starts at or before the shard of the organization, and no other lies between. -/
structure Holds (t : Topic) (org : UInt64) (e : UInt64 × Bytes) : Prop where
  mem : e ∈ t.mapping
  start : e.1 ≤ org % t.shards
  last : ∀ e' ∈ t.mapping, ¬ (e.1 < e'.1 ∧ e'.1 ≤ org % t.shards)

theorem mem_upTo {e : UInt64 × Bytes} : e ∈ upTo shard mapping ↔ e ∈ mapping ∧ e.1 ≤ shard := by
  simp [upTo]

theorem holds_iff (h : Ordered.Sorted t.mapping) {e : UInt64 × Bytes} :
    t.Holds org e ↔ (upTo (org % t.shards) t.mapping).getLast? = some e := by
  have hsorted : (upTo (org % t.shards) t.mapping).Pairwise fun a b => a.1 < b.1 :=
    h.sublist List.filter_sublist
  constructor
  · rintro ⟨hmem, hstart, hlast⟩
    have he : e ∈ upTo (org % t.shards) t.mapping := mem_upTo.mpr ⟨hmem, hstart⟩
    obtain ⟨last, hgetLast⟩ : ∃ last, (upTo (org % t.shards) t.mapping).getLast? = some last :=
      ⟨_, List.getLast?_eq_some_getLast (List.ne_nil_of_mem he)⟩
    obtain ⟨before, hupTo⟩ := List.getLast?_eq_some_iff.mp hgetLast
    rw [hupTo] at he hsorted
    rcases List.mem_append.mp he with he | he
    · have hlt : e.1 < last.1 := (List.pairwise_append.mp hsorted).2.2 e he last (by simp)
      have hin : last ∈ upTo (org % t.shards) t.mapping := by simp [hupTo]
      exact absurd ⟨hlt, (mem_upTo.mp hin).2⟩ (hlast last (mem_upTo.mp hin).1)
    · rw [hgetLast, List.mem_singleton.mp he]
  · intro hgetLast
    obtain ⟨before, hupTo⟩ := List.getLast?_eq_some_iff.mp hgetLast
    have hin : e ∈ upTo (org % t.shards) t.mapping := by simp [hupTo]
    refine ⟨(mem_upTo.mp hin).1, (mem_upTo.mp hin).2, ?_⟩
    rintro e' he' ⟨hlt, hle⟩
    have hin' : e' ∈ before ++ [e] := hupTo ▸ mem_upTo.mpr ⟨he', hle⟩
    rw [hupTo] at hsorted
    rcases List.mem_append.mp hin' with hbefore | hself
    · exact UInt64.lt_asymm hlt ((List.pairwise_append.mp hsorted).2.2 e' hbefore e (by simp))
    · rw [List.mem_singleton.mp hself] at hlt
      exact UInt64.lt_irrefl _ hlt

/-! ## Validation -/

theorem mappingFault?_eq_none_iff : mappingFault? shards mapping = none ↔
    ∃ name rest, mapping = (0, name) :: rest ∧ ∀ e ∈ mapping.getLast?, e.1 < shards := by
  cases mapping with
  | nil => simp [mappingFault?]
  | cons first rest =>
    obtain ⟨start, name⟩ := first
    unfold mappingFault?
    rw [List.getLast?_eq_some_getLast (List.cons_ne_nil _ _)]
    by_cases hzero : start = 0
    · simp [hzero]
    · simp [hzero]

/-- An entry below the number of shards holds for the organization of its number. -/
theorem holds_self {e : UInt64 × Bytes} (he : e ∈ t.mapping) (hlt : e.1 < t.shards) :
    t.Holds e.1 e := by
  refine ⟨he, ?_, ?_⟩
  · rw [UInt64.mod_eq_of_lt hlt]
    exact UInt64.le_refl _
  · rintro e' - ⟨hlt', hle⟩
    rw [UInt64.mod_eq_of_lt hlt] at hle
    exact UInt64.lt_irrefl _ (Std.lt_of_lt_of_le hlt' hle)

/-- An entry at the number of shards or beyond is there for nothing. -/
theorem lt_shards_of_holds (hsharded : t.isSharded = true) {e : UInt64 × Bytes} (he : t.Holds org e) :
    e.1 < t.shards :=
  Std.lt_of_le_of_lt he.start (UInt64.mod_lt _ (by simpa [isSharded] using hsharded))

/-- **Validation is neither too weak nor too strict**: every shard has an entry, and every entry an
organization that it holds for. -/
theorem fault?_eq_none_iff (h : Ordered.Sorted t.mapping) (hsharded : t.isSharded = true) :
    t.fault? = none ↔ (∀ shard < t.shards, ∃ e ∈ t.mapping, e.1 ≤ shard) ∧
      ∀ e ∈ t.mapping, ∃ org, t.Holds org e := by
  have hpos : 0 < t.shards := by simpa [isSharded] using hsharded
  have hsorted : t.mapping.Pairwise fun a b => a.1 < b.1 := h
  rw [fault?, if_pos hsharded, mappingFault?_eq_none_iff]
  constructor
  · rintro ⟨name, rest, hmapping, hlast⟩
    refine ⟨fun shard _ => ⟨(0, name), by simp [hmapping], UInt64.zero_le⟩, fun e he => ?_⟩
    refine ⟨e.1, holds_self he ?_⟩
    have hgetLast := List.getLast?_eq_some_getLast (List.ne_nil_of_mem he)
    obtain ⟨before, hsplit⟩ := List.getLast?_eq_some_iff.mp hgetLast
    have hbound := hlast _ hgetLast
    rw [hsplit] at he hsorted
    rcases List.mem_append.mp he with he | he
    · exact UInt64.lt_trans ((List.pairwise_append.mp hsorted).2.2 e he _ (by simp)) hbound
    · rwa [List.mem_singleton.mp he]
  · rintro ⟨hcovered, hused⟩
    obtain ⟨e, he, hzero⟩ := hcovered 0 hpos
    obtain ⟨first, rest, hmapping⟩ := List.exists_cons_of_ne_nil (List.ne_nil_of_mem he)
    have hfirst : first.1 = 0 := by
      rw [hmapping] at he hsorted
      rcases List.mem_cons.mp he with rfl | he
      · exact UInt64.le_zero_iff.mp hzero
      · have hlt := Std.lt_of_lt_of_le ((List.pairwise_cons.mp hsorted).1 e he) hzero
        exact absurd hlt UInt64.not_lt_zero
    refine ⟨first.2, rest, by rw [hmapping, ← hfirst], fun last hlast => ?_⟩
    obtain ⟨org, hholds⟩ := hused last (List.mem_of_getLast? hlast)
    exact lt_shards_of_holds hsharded hholds

/-! ## Every organization -/

/-- What a topic comes to: with a fault or without one. -/
structure Routed (t : Topic) : Prop where
  /-- The lookup of a validated topic goes through, and its steps find what the router answers. -/
  found : ∀ (hf : t.fault? = none) (org : UInt64), t.seek org = .ok ((⟨t, hf⟩ : Router).topicFor org)
  unsharded : t.isSharded = false → ∀ (hf : t.fault? = none) (org : UInt64),
    (⟨t, hf⟩ : Router).topicFor org = t.name
  /-- The topic is that of the one entry that holds for the organization. -/
  sharded : t.isSharded = true → ∀ (hf : t.fault? = none) (org : UInt64),
    ∃ e, (∀ e', t.Holds org e' ↔ e' = e) ∧ (⟨t, hf⟩ : Router).topicFor org = e.2
  /-- No topic of a validated mapping is there for nothing. -/
  used : t.isSharded = true → ∀ (hf : t.fault? = none), ∀ e ∈ t.mapping,
    ∃ org, t.Holds org e ∧ (⟨t, hf⟩ : Router).topicFor org = e.2
  /-- Without validation the lookup would step before the first entry for some shard, or an entry would
  be there for nothing. -/
  refused : t.isSharded = true → t.fault? ≠ none →
    (∃ shard < t.shards, (∀ e ∈ t.mapping, shard < e.1) ∧
      ∀ org, org % t.shards = shard → t.seek org = .error .beforeFirst) ∨
    ∃ e ∈ t.mapping, ∀ org, ¬ t.Holds org e

/-- The one entry that holds, and its topic. -/
theorem topicFor_of_isSharded (h : Ordered.Sorted t.mapping) (hsharded : t.isSharded = true)
    (hf : t.fault? = none) (org : UInt64) :
    ∃ e, (∀ e', t.Holds org e' ↔ e' = e) ∧ (⟨t, hf⟩ : Router).topicFor org = e.2 := by
  have hfound := seek_eq_ok h hf org
  rw [seek_of_isSharded h hsharded] at hfound
  split at hfound
  · next e hlast =>
    refine ⟨e, fun e' => ?_, (Except.ok.inj hfound).symm⟩
    rw [holds_iff h, hlast, Option.some_inj, eq_comm]
  · cases hfound

/-- A shard before all entries has none to step back to. -/
theorem seek_of_uncovered (h : Ordered.Sorted t.mapping) (hsharded : t.isSharded = true)
    (hbefore : ∀ e ∈ t.mapping, org % t.shards < e.1) : t.seek org = .error .beforeFirst := by
  have hnone : upTo (org % t.shards) t.mapping = [] := by
    refine List.filter_eq_nil_iff.mpr fun e he => ?_
    simpa using hbefore e he
  rw [seek_of_isSharded h hsharded, hnone]
  rfl

/-- **Every organization has its topic, and every topic an organization**, if the topic was validated;
and no mapping was refused of which that is true. -/
theorem routed (h : Ordered.Sorted t.mapping) : t.Routed where
  found := seek_eq_ok h
  unsharded hsharded hf org := by simp [Router.topicFor, hsharded]
  sharded hsharded hf org := topicFor_of_isSharded h hsharded hf org
  used hsharded hf e he := by
    obtain ⟨org, hholds⟩ := ((fault?_eq_none_iff h hsharded).mp hf).2 e he
    obtain ⟨e', honly, htopic⟩ := topicFor_of_isSharded h hsharded hf org
    exact ⟨org, hholds, by rw [htopic, (honly e).mp hholds]⟩
  refused hsharded hf := by
    rw [Ne, fault?_eq_none_iff h hsharded, not_and_or] at hf
    refine hf.imp (fun hcovered => ?_) fun hused => ?_
    · simp only [not_forall, not_exists, not_and, UInt64.not_le] at hcovered
      obtain ⟨shard, hlt, hbefore⟩ := hcovered
      refine ⟨shard, hlt, hbefore, fun org horg => seek_of_uncovered h hsharded ?_⟩
      rwa [horg]
    · simpa only [not_forall, not_exists, exists_prop] using hused

/-- Three shards on two topics: the second one has the organizations of the last shard. -/
theorem routed_three_shards :
    let t : Topic := { shards := 3, mapping := [(0, ascii "metrics-1"), (2, ascii "metrics-2")] }
    Ordered.Sorted t.mapping ∧ t.isSharded = true ∧ t.fault? = none ∧
      t.seek 5 = .ok (ascii "metrics-2") ∧ t.Routed := by
  intro t
  have hsorted : Ordered.Sorted t.mapping := by decide
  exact ⟨hsorted, rfl, by decide, by decide, routed hsorted⟩

end Telemetry.Topic

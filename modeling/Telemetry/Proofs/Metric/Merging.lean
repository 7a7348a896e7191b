import Mathlib.Data.Multiset.Bind
import Mathlib.Logic.Relation
import Telemetry.Proofs.Aggregator.Ledger
import Telemetry.Proofs.Binary64.Order
import Telemetry.Proofs.Metric.Members

/-!
# Merging in any order

Values that are merged two at a time, in any order and any grouping, end in values that say the same
of them (`Merges.agrees`): the same members, the same readings, the same bounds and the same counts.
Only sums of doubles depend on the order, by their rounding.  They are sums of the same numbers all
the same, and the exact sum is one (`SameSum`).
-/

namespace Telemetry

/-! ## Sums -/

/-- A sum as it was formed, two summands at a time. -/
inductive Addition where
  | number (x : Float) (h : Binary64.isFinite x = true)
  | add (s t : Addition)

namespace Addition

/-- The sum where each addition is rounded. -/
def rounded : Addition → Float
  | number x _ => x
  | add s t => s.rounded + t.rounded

/-- The sum where no addition is rounded. -/
def exact : Addition → ℚ
  | number x _ => Binary64.value x
  | add s t => s.exact + t.exact

/-- The numbers that are added. -/
def summands : Addition → Multiset Float
  | number x _ => {x}
  | add s t => s.summands + t.summands

/-- Exact additions can be done in any order. -/
theorem exact_eq (t : Addition) : t.exact = (t.summands.map Binary64.value).sum := by
  induction t with
  | number x h => simp [exact, summands]
  | add s t ihs iht => rw [exact, summands, ihs, iht, Multiset.map_add, Multiset.sum_add]

theorem exists_numbers {xs : Multiset Float} (h : ∀ x ∈ xs, Binary64.isFinite x = true) :
    ∃ ts : Multiset Addition, ts.map rounded = xs ∧ ts.bind summands = xs := by
  induction xs using Multiset.induction with
  | empty => exact ⟨0, rfl, rfl⟩
  | cons x rest ih =>
    rw [Multiset.forall_mem_cons] at h
    obtain ⟨ts, hrounded, hsummands⟩ := ih h.2
    refine ⟨number x h.1 ::ₘ ts, ?_, ?_⟩
    · rw [Multiset.map_cons, hrounded, rounded]
    · rw [Multiset.cons_bind, hsummands, summands, Multiset.singleton_add]

/-- Two of some sums are added up. -/
theorem exists_add {ts : Multiset Addition} {x y : Float} {others : Multiset Float}
    (h : ts.map rounded = {x} + ({y} + others)) :
    ∃ ts' : Multiset Addition, ts'.map rounded = {x + y} + others ∧
      ts'.bind summands = ts.bind summands := by
  classical
  rw [Multiset.singleton_add, Multiset.singleton_add, ← Multiset.map_eq_cons] at h
  obtain ⟨s, hs, rfl, hrest⟩ := h
  obtain ⟨rest, rfl⟩ := Multiset.exists_cons_of_mem hs
  rw [Multiset.erase_cons_head] at hrest
  obtain ⟨t, ht, rfl, hmore⟩ := (Multiset.map_eq_cons _ _ _ _).mpr hrest
  obtain ⟨more, rfl⟩ := Multiset.exists_cons_of_mem ht
  rw [Multiset.erase_cons_head] at hmore
  refine ⟨s.add t ::ₘ more, ?_, ?_⟩
  · rw [Multiset.map_cons, hmore, rounded, Multiset.singleton_add]
  · rw [Multiset.cons_bind, Multiset.cons_bind, Multiset.cons_bind, summands, add_assoc]

end Addition

/-- Two doubles are sums of the same numbers, each rounded on its own way; without rounding they are
one. -/
def SameSum (summands : Multiset Float) (x y : Float) : Prop :=
  ∃ s t : Addition, s.rounded = x ∧ t.rounded = y ∧ s.summands = summands ∧ t.summands = summands ∧
    s.exact = t.exact

namespace Value

/-! ## Steps of merging -/

/-- The numbers that a value keeps as they came. -/
def kept {ν : Type} : Value ν → List ν
  | .counter _ | .set _ => []
  | .distribution xs => xs
  | .gauge g => [g.last, g.min, g.max]

/-- The sums that a value keeps. -/
def totals {ν : Type} : Value ν → Multiset ν
  | .counter x => {x}
  | .distribution _ | .set _ => 0
  | .gauge g => {g.sum}

section Merges

variable {ν : Type} [Add ν] [LT ν] [DecidableLT ν]

theorem mem_kept_merge? {v w u : Value ν} (h : v.merge? w = some u) {x : ν} (hx : x ∈ u.kept) :
    x ∈ v.kept ∨ x ∈ w.kept := by
  cases v <;> cases w <;> simp only [merge?, Option.some.injEq, reduceCtorEq] at h <;> subst h
  · exact Or.inl hx
  · exact List.mem_append.mp hx
  · exact Or.inl hx
  · next g h =>
    unfold Gauge.merge at hx
    split at hx
    · exact Or.inl hx
    · split at hx
      · exact Or.inr hx
      · simp only [kept, Gauge.lesser, Gauge.greater, List.mem_cons, List.not_mem_nil, or_false] at hx ⊢
        grind

/-- Two of some values are merged into one. -/
inductive MergeStep : Multiset (Value ν) → Multiset (Value ν) → Prop
  | intro {v w u : Value ν} (rest : Multiset (Value ν)) (h : v.merge? w = some u) :
      MergeStep (v ::ₘ w ::ₘ rest) (u ::ₘ rest)

/-- Some values are merged into others, two at a time. -/
abbrev Merges : Multiset (Value ν) → Multiset (Value ν) → Prop := Relation.ReflTransGen MergeStep

namespace Merges

variable {vs ws vs' ws' : Multiset (Value ν)}

theorem of_merge? {v w u : Value ν} (h : v.merge? w = some u) : Merges {v, w} {u} :=
  .single (.intro 0 h)

theorem add_right (h : Merges vs ws) (others : Multiset (Value ν)) :
    Merges (vs + others) (ws + others) := by
  refine h.lift (· + others) ?_
  rintro _ _ ⟨rest, hmerge⟩
  rw [Function.onFun, Multiset.cons_add, Multiset.cons_add, Multiset.cons_add]
  exact .intro (rest + others) hmerge

theorem add (h : Merges vs ws) (h' : Merges vs' ws') : Merges (vs + vs') (ws + ws') := by
  refine (h.add_right vs').trans ?_
  rw [add_comm ws, add_comm ws]
  exact h'.add_right ws

/-- Two stages: what the first leaves over is merged in the second. -/
theorem chain {us us' : Multiset (Value ν)} (h : Merges (vs + us) (ws + us'))
    {us₂ : Multiset (Value ν)} (h' : Merges (vs' + us') (ws' + us₂)) :
    Merges (vs + vs' + us) (ws + ws' + us₂) := by
  have hfirst : Merges (vs + vs' + us) (ws + (vs' + us')) := by
    rw [add_right_comm, add_left_comm, add_comm vs']
    exact h.add_right vs'
  refine hfirst.trans ?_
  rw [add_assoc, add_comm ws, add_comm ws]
  exact h'.add_right ws

theorem eq_zero_iff (h : Merges vs ws) : ws = 0 ↔ vs = 0 := by
  induction h with
  | refl => rfl
  | tail _ hstep ih =>
    rw [← ih]
    obtain ⟨rest, -⟩ := hstep
    simp

/-- What two values pass on to the value they merge into, merging passes on. -/
theorem forall_of_closed {Q : Value ν → Prop} (h : Merges vs ws)
    (hclosed : ∀ {v w u}, Q v → Q w → v.merge? w = some u → Q u) (hvs : ∀ v ∈ vs, Q v) :
    ∀ w ∈ ws, Q w := by
  induction h with
  | refl => exact hvs
  | tail _ hstep ih =>
    obtain ⟨rest, hmerge⟩ := hstep
    simp only [Multiset.forall_mem_cons] at ih ⊢
    exact ⟨hclosed ih.1 ih.2.1 hmerge, ih.2.2⟩

end Merges

end Merges

/-! ## Merging that loses nothing -/

/-- How many readings a gauge counts. -/
def count {ν : Type} : Value ν → Nat
  | .counter _ | .distribution _ | .set _ => 0
  | .gauge g => g.count.toNat

/-- The members of a set; no other kind has any. -/
def members {ν : Type} : Value ν → Members
  | .set s => s
  | .counter _ | .distribution _ | .gauge _ => Members.empty

/-- A gauge saw something, and its bounds are finite. -/
def Sound : Value Float → Prop
  | .counter _ | .distribution _ | .set _ => True
  | .gauge g => g.count ≠ 0 ∧ Binary64.isFinite g.min = true ∧ Binary64.isFinite g.max = true

/-- One value is two others merged, where no count overflows and no gauge is empty. -/
inductive Joins : Value Float → Value Float → Value Float → Prop
  | counter (x y : Float) : Joins (.counter x) (.counter y) (.counter (x + y))
  | distribution (xs ys : List Float) :
      Joins (.distribution xs) (.distribution ys) (.distribution (xs ++ ys))
  | set (s t : Members) : Joins (.set s) (.set t) (.set (s.union t))
  | gauge {g h : Gauge Float} (hg : (Value.gauge g).Sound) (hh : (Value.gauge h).Sound)
      (hcount : g.count.toNat + h.count.toNat < UInt64.size) :
      Joins (.gauge g) (.gauge h) (.gauge (g.merge h))

theorem Sound.merge_eq {g h : Gauge Float} (hg : (gauge g).Sound) (hh : (gauge h).Sound) :
    g.merge h = ⟨h.last, Gauge.lesser g.min h.min, Gauge.greater g.max h.max, g.sum + h.sum,
      g.count + h.count⟩ := by
  rw [Gauge.merge, if_neg hh.1, if_neg hg.1]

theorem Joins.of_merge? {v w u : Value Float} (hv : v.Sound) (hw : w.Sound)
    (hcount : v.count + w.count < UInt64.size) (h : v.merge? w = some u) : Joins v w u := by
  cases v <;> cases w <;> simp only [merge?, Option.some.injEq, reduceCtorEq] at h <;> subst h
  · exact .counter _ _
  · exact .distribution _ _
  · exact .set _ _
  · exact .gauge hv hw hcount

theorem isFinite_lesser {x y : Float} (hx : Binary64.isFinite x = true)
    (hy : Binary64.isFinite y = true) : Binary64.isFinite (Gauge.lesser x y) = true := by
  unfold Gauge.lesser
  split <;> assumption

theorem isFinite_greater {x y : Float} (hx : Binary64.isFinite x = true)
    (hy : Binary64.isFinite y = true) : Binary64.isFinite (Gauge.greater x y) = true := by
  unfold Gauge.greater
  split <;> assumption

theorem value_lesser {x y : Float} (hx : Binary64.isFinite x = true)
    (hy : Binary64.isFinite y = true) :
    Binary64.value (Gauge.lesser x y) = min (Binary64.value x) (Binary64.value y) := by
  unfold Gauge.lesser
  split
  · next h => rw [min_eq_right ((Binary64.lt_iff hy hx).mp h).le]
  · next h => rw [min_eq_left (not_lt.mp (mt (Binary64.lt_iff hy hx).mpr h))]

theorem value_greater {x y : Float} (hx : Binary64.isFinite x = true)
    (hy : Binary64.isFinite y = true) :
    Binary64.value (Gauge.greater x y) = max (Binary64.value x) (Binary64.value y) := by
  unfold Gauge.greater
  split
  · next h => rw [max_eq_right ((Binary64.lt_iff hx hy).mp h).le]
  · next h => rw [max_eq_left (not_lt.mp (mt (Binary64.lt_iff hx hy).mpr h))]

namespace Joins

variable {v w u : Value Float}

theorem kind (h : Joins v w u) : v.kind = u.kind ∧ w.kind = u.kind := by
  cases h <;> exact ⟨rfl, rfl⟩

theorem count (h : Joins v w u) : u.count = v.count + w.count := by
  cases h with
  | gauge hg hh hcount =>
    rw [hg.merge_eq hh]
    exact (UInt64.toNat_add ..).trans (Nat.mod_eq_of_lt hcount)
  | _ => rfl

theorem sound (h : Joins v w u) : u.Sound := by
  have hcount := h.count
  cases h with
  | @gauge g h hg hh hsize =>
    have hpos : 0 < g.count.toNat := Nat.pos_of_ne_zero fun h => hg.1 (UInt64.toNat_inj.mp h)
    have hsum : (g.merge h).count.toNat = g.count.toNat + h.count.toNat := hcount
    refine ⟨?_, ?_, ?_⟩
    · intro hzero
      rw [hzero, UInt64.toNat_zero] at hsum
      omega
    · rw [hg.merge_eq hh]
      exact isFinite_lesser hg.2.1 hh.2.1
    · rw [hg.merge_eq hh]
      exact isFinite_greater hg.2.2 hh.2.2
  | _ => trivial

end Joins

/-- Every gauge saw something, and one count can hold all that they saw. -/
structure Lossless (vs : Multiset (Value Float)) : Prop where
  sound : ∀ v ∈ vs, v.Sound
  counts : (vs.map count).sum < UInt64.size

namespace Lossless

variable {v w u : Value Float} {rest : Multiset (Value Float)}

theorem joins (h : Lossless (v ::ₘ w ::ₘ rest)) (hmerge : v.merge? w = some u) : Joins v w u := by
  obtain ⟨hsound, hcounts⟩ := h
  simp only [Multiset.forall_mem_cons] at hsound
  simp only [Multiset.map_cons, Multiset.sum_cons] at hcounts
  exact .of_merge? hsound.1 hsound.2.1 (by omega) hmerge

theorem step (h : Lossless (v ::ₘ w ::ₘ rest)) (hjoins : Joins v w u) : Lossless (u ::ₘ rest) := by
  obtain ⟨hsound, hcounts⟩ := h
  simp only [Multiset.forall_mem_cons] at hsound
  simp only [Multiset.map_cons, Multiset.sum_cons] at hcounts
  refine ⟨Multiset.forall_mem_cons.mpr ⟨hjoins.sound, hsound.2.2⟩, ?_⟩
  rw [Multiset.map_cons, Multiset.sum_cons, hjoins.count]
  omega

end Lossless

/-! ## What merging keeps -/

namespace Merges

variable {vs ws : Multiset (Value Float)}

theorem lossless (hvs : Lossless vs) (h : Merges vs ws) : Lossless ws := by
  induction h with
  | refl => exact hvs
  | tail _ hstep ih =>
    obtain ⟨rest, hmerge⟩ := hstep
    exact ih.step (ih.joins hmerge)

/-- What joining two values keeps, merging keeps. -/
theorem induction {P : Multiset (Value Float) → Prop} (hvs : Lossless vs) (h : Merges vs ws)
    (hstart : P vs)
    (hstep : ∀ {v w u rest}, Joins v w u → P (v ::ₘ w ::ₘ rest) → P (u ::ₘ rest)) : P ws := by
  induction h with
  | refl => exact hstart
  | tail hbefore hnext ih =>
    have hlossless := lossless hvs hbefore
    obtain ⟨rest, hmerge⟩ := hnext
    exact hstep (hlossless.joins hmerge) ih

/-- A property that two values have together if their join has it. -/
theorem forall_iff {Q : Value Float → Prop} (hvs : Lossless vs) (h : Merges vs ws)
    (hQ : ∀ {v w u}, Joins v w u → (Q u ↔ Q v ∧ Q w)) : (∀ w ∈ ws, Q w) ↔ ∀ v ∈ vs, Q v := by
  refine h.induction (P := fun ws => (∀ w ∈ ws, Q w) ↔ ∀ v ∈ vs, Q v) hvs Iff.rfl ?_
  intro v w u rest hjoins ih
  rw [← ih]
  simp only [Multiset.forall_mem_cons, hQ hjoins, and_assoc]

/-- A quantity that adds up when two values are joined. -/
theorem sum_map_eq {M : Type} [AddCommMonoid M] {φ : Value Float → M} (hvs : Lossless vs)
    (h : Merges vs ws) (hφ : ∀ {v w u}, Joins v w u → φ u = φ v + φ w) :
    (ws.map φ).sum = (vs.map φ).sum := by
  refine h.induction (P := fun ws => (ws.map φ).sum = (vs.map φ).sum) hvs rfl ?_
  intro v w u rest hjoins ih
  rw [← ih]
  simp only [Multiset.map_cons, Multiset.sum_cons, hφ hjoins, add_assoc]

/-- The totals are sums of the totals that were there. -/
theorem exists_additions (hvs : Lossless vs) (h : Merges vs ws)
    (hfinite : ∀ x ∈ vs.bind totals, Binary64.isFinite x = true) :
    ∃ ts : Multiset Addition, ts.map Addition.rounded = ws.bind totals ∧
      ts.bind Addition.summands = vs.bind totals := by
  refine h.induction (P := fun ws => ∃ ts : Multiset Addition,
    ts.map Addition.rounded = ws.bind totals ∧ ts.bind Addition.summands = vs.bind totals) hvs
    (Addition.exists_numbers hfinite) ?_
  rintro v w u rest hjoins ⟨ts, hrounded, hsummands⟩
  simp only [Multiset.cons_bind] at hrounded ⊢
  cases hjoins with
  | distribution | set => exact ⟨ts, by simpa [totals] using hrounded, hsummands⟩
  | counter x y =>
    obtain ⟨ts', hrounded', hsummands'⟩ := Addition.exists_add hrounded
    exact ⟨ts', hrounded', hsummands'.trans hsummands⟩
  | gauge hg hh =>
    obtain ⟨ts', hrounded', hsummands'⟩ := Addition.exists_add hrounded
    rw [hg.merge_eq hh]
    exact ⟨ts', hrounded', hsummands'.trans hsummands⟩

/-! ### Two ways of merging -/

theorem sameSum {v w : Value Float} {x y : Float} (hvs : Lossless vs)
    (hfinite : ∀ x ∈ vs.bind totals, Binary64.isFinite x = true) (hv : Merges vs {v})
    (hw : Merges vs {w}) (hx : v.totals = {x}) (hy : w.totals = {y}) :
    SameSum (vs.bind totals) x y := by
  have hsum : ∀ {u : Value Float} {z : Float}, Merges vs {u} → u.totals = {z} →
      ∃ t : Addition, t.rounded = z ∧ t.summands = vs.bind totals := by
    intro u z hu hz
    obtain ⟨ts, hrounded, hsummands⟩ := hu.exists_additions hvs hfinite
    rw [Multiset.singleton_bind, hz, Multiset.map_eq_singleton] at hrounded
    obtain ⟨t, rfl, ht⟩ := hrounded
    exact ⟨t, ht, by rw [← hsummands, Multiset.singleton_bind]⟩
  obtain ⟨s, hs, hsummands⟩ := hsum hv hx
  obtain ⟨t, ht, htsummands⟩ := hsum hw hy
  refine ⟨s, t, hs, ht, hsummands, htsummands, ?_⟩
  rw [s.exact_eq, t.exact_eq, hsummands, htsummands]

theorem kind_eq {v w : Value Float} (hvs : Lossless vs) (hv : Merges vs {v}) (hw : Merges vs {w}) :
    v.kind = w.kind := by
  have hkind : ∀ {u : Value Float}, Merges vs {u} →
      ((∀ u' ∈ ({u} : Multiset (Value Float)), u'.kind = v.kind) ↔ ∀ u' ∈ vs, u'.kind = v.kind) := by
    intro u hu
    refine hu.forall_iff hvs ?_
    intro a b c hjoins
    rw [hjoins.kind.1, hjoins.kind.2, and_self]
  have hall : ∀ u' ∈ vs, u'.kind = v.kind := by
    refine (hkind hv).mp ?_
    simp
  have hboth := (hkind hw).mpr hall
  rw [hboth w (Multiset.mem_singleton_self w)]

theorem set_eq {s t : Members} (hvs : Lossless vs) (hs : Merges vs {.set s})
    (ht : Merges vs {.set t}) : s = t := by
  have hmem : ∀ {r : Members} (m : UInt32), Merges vs {.set r} →
      (m ∉ r.toList ↔ ∀ v ∈ vs, m ∉ v.members.toList) := by
    intro r m hr
    rw [← hr.forall_iff hvs (Q := fun v => m ∉ v.members.toList)]
    · simp [members]
    · intro v w u hjoins
      cases hjoins with
      | set s t => simp only [members, Members.mem_union, not_or]
      | _ => simp [members, Members.empty]
  -- a set is determined by what is no member of it, and that is a property of all values together
  refine Members.ext_mem fun m => ?_
  rw [← not_iff_not, hmem m hs, hmem m ht]

theorem readings_perm {xs ys : List Float} (hvs : Lossless vs)
    (hx : Merges vs {.distribution xs}) (hy : Merges vs {.distribution ys}) : xs.Perm ys := by
  have hreadings : ∀ {zs : List Float}, Merges vs {.distribution zs} →
      (zs : Multiset Float) = (vs.map fun v => (v.readings : Multiset Float)).sum := by
    intro zs hz
    rw [← hz.sum_map_eq hvs (φ := fun v => (v.readings : Multiset Float))]
    · simp
    · intro v w u hjoins
      cases hjoins <;> rfl
  rw [← Multiset.coe_eq_coe, hreadings hx, hreadings hy]

section Gauges

variable {g h : Gauge Float} (hvs : Lossless vs) (hg : Merges vs {.gauge g})
  (hh : Merges vs {.gauge h})
include hvs hg hh

theorem count_eq : g.count = h.count := by
  have hcount : ∀ {f : Gauge Float}, Merges vs {.gauge f} →
      f.count.toNat = (vs.map count).sum := by
    intro f hf
    rw [← hf.sum_map_eq hvs (φ := count) Joins.count]
    simp [count]
  rw [← UInt64.toNat_inj, hcount hg, hcount hh]

/-- A bound that is the least of two when gauges are merged is determined by its own lower bounds. -/
theorem bound_eq (bound : Gauge Float → ℚ) (hbound : ∀ {g h}, (Value.gauge g).Sound →
    (Value.gauge h).Sound → bound (g.merge h) = min (bound g) (bound h)) : bound g = bound h := by
  have hlower : ∀ {f : Gauge Float} (q : ℚ), Merges vs {.gauge f} →
      (q ≤ bound f ↔ ∀ v ∈ vs, ∀ f, v = .gauge f → q ≤ bound f) := by
    intro f q hf
    rw [← hf.forall_iff hvs (Q := fun v => ∀ f, v = .gauge f → q ≤ bound f)]
    · simp
    · intro v w u hjoins
      cases hjoins with
      | gauge hg hh => simp [hbound hg hh]
      | _ => simp
  refine eq_of_forall_le_iff fun q => ?_
  rw [hlower q hg, hlower q hh]

theorem min_beq : (g.min == h.min) = true := by
  have hgs : (Value.gauge g).Sound := (hg.lossless hvs).sound _ (Multiset.mem_singleton_self _)
  have hhs : (Value.gauge h).Sound := (hh.lossless hvs).sound _ (Multiset.mem_singleton_self _)
  rw [Binary64.beq_iff hgs.2.1 hhs.2.1]
  refine bound_eq hvs hg hh (fun g => Binary64.value g.min) ?_
  intro g h hg hh
  rw [hg.merge_eq hh]
  exact value_lesser hg.2.1 hh.2.1

theorem max_beq : (g.max == h.max) = true := by
  have hgs : (Value.gauge g).Sound := (hg.lossless hvs).sound _ (Multiset.mem_singleton_self _)
  have hhs : (Value.gauge h).Sound := (hh.lossless hvs).sound _ (Multiset.mem_singleton_self _)
  rw [Binary64.beq_iff hgs.2.2 hhs.2.2, ← neg_inj]
  refine bound_eq hvs hg hh (fun g => -Binary64.value g.max) ?_
  intro g h hg hh
  rw [hg.merge_eq hh, min_neg_neg]
  exact congrArg _ (value_greater hg.2.2 hh.2.2)

end Gauges

end Merges

/-- Two values say the same of the same values: bounds are equal as numbers, and sums are sums of the
same numbers. -/
inductive Agrees (summands : Multiset Float) : Value Float → Value Float → Prop
  | counter {x y : Float} (sum : SameSum summands x y) : Agrees summands (.counter x) (.counter y)
  | distribution {xs ys : List Float} (readings : xs.Perm ys) :
      Agrees summands (.distribution xs) (.distribution ys)
  | set (members : Members) : Agrees summands (.set members) (.set members)
  | gauge {g h : Gauge Float} (min : (g.min == h.min) = true) (max : (g.max == h.max) = true)
      (count : g.count = h.count) (sum : SameSum summands g.sum h.sum) :
      Agrees summands (.gauge g) (.gauge h)

/-- **Two ways of merging the same values end in values that agree.** -/
theorem Merges.agrees {vs : Multiset (Value Float)} {v w : Value Float} (hvs : Lossless vs)
    (hfinite : ∀ x ∈ vs.bind totals, Binary64.isFinite x = true) (hv : Merges vs {v})
    (hw : Merges vs {w}) : Agrees (vs.bind totals) v w := by
  have hkind := hv.kind_eq hvs hw
  cases v with
  | counter x =>
    cases w with
    | counter y => exact .counter (hv.sameSum hvs hfinite hw rfl rfl)
    | _ => cases hkind
  | distribution xs =>
    cases w with
    | distribution ys => exact .distribution (hv.readings_perm hvs hw)
    | _ => cases hkind
  | set s =>
    cases w with
    | set t =>
      rw [hv.set_eq hvs hw]
      exact .set t
    | _ => cases hkind
  | gauge g =>
    cases w with
    | gauge h =>
      exact .gauge (min_beq hvs hv hw) (max_beq hvs hv hw) (count_eq hvs hv hw)
        (hv.sameSum hvs hfinite hw rfl rfl)
    | _ => cases hkind

end Value

end Telemetry

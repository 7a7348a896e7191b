import Telemetry.Proofs.Bucket.Producers
import Telemetry.Proofs.Metric.Merging

/-!
# What the value of a line is merged from

The numbers of a line are finite, and its value is them merged one after another: a counter from zero
on, a gauge from the first reading on.
-/

namespace Telemetry.Line

open Value

variable {line : Bytes} {now : UInt64} {p : Point Float}

/-! ## Numbers -/

theorem isFinite_of_number {raw : Bytes} {x : Float} (h : number raw = .ok x) :
    Binary64.isFinite x = true := by
  unfold number at h
  split at h
  · cases h
  · split at h
    · next n _ =>
      split at h
      · cases h
      · next hrange =>
        cases h
        rw [Bool.or_eq_true, not_or, Numeral.overflows, decide_eq_true_iff, not_le] at hrange
        exact Binary64.isFinite_ofSignBits hrange.1
    · cases h

/-- The numbers among the values of a line. -/
def numbers (line : Bytes) : List Float := (parts line).filterMap fun raw => (number raw).toOption

theorem length_numbers_le (line : Bytes) : (numbers line).length ≤ (parts line).length :=
  List.length_filterMap_le _ _

theorem isFinite_of_mem_numbers {x : Float} (h : x ∈ numbers line) : Binary64.isFinite x = true := by
  obtain ⟨raw, -, hx⟩ := List.mem_filterMap.mp h
  exact isFinite_of_number (toOption_eq_some.mp hx)

theorem numbers_of_mapM {xs : List Float} (h : (parts line).mapM number = .ok xs) :
    numbers line = xs := by
  unfold numbers
  generalize parts line = texts at h
  induction mapM_eq_ok_iff.mp h with
  | nil => rfl
  | cons hraw hrest ih =>
    rw [List.filterMap_cons, hraw, ← ih (mapM_eq_ok_iff.mpr hrest)]
    rfl

/-! ## Sources -/

/-- What a value is merged from if those are its numbers. -/
def sources (v : Value Float) (xs : List Float) : Multiset (Value Float) :=
  match v with
  | .counter _ => (0 ::ₘ (xs : Multiset Float)).map .counter
  | .distribution _ => (xs : Multiset Float).map fun x => .distribution [x]
  | .set _ => {v}
  | .gauge _ => (xs : Multiset Float).map fun x => .gauge (.single x)

/-- A fold whose steps are merges is a way of merging. -/
theorem merges_foldl {σ : Type} {content : σ → Value Float} {source : Float → Value Float}
    {add : σ → Float → σ} (hadd : ∀ s x, (content s).merge? (source x) = some (content (add s x)))
    (s : σ) (xs : List Float) :
    Merges (content s ::ₘ (xs : Multiset Float).map source) {content (xs.foldl add s)} := by
  induction xs generalizing s with
  | nil => exact .refl
  | cons x rest ih =>
    rw [← Multiset.cons_coe, Multiset.map_cons]
    exact .head (.intro _ (hadd s x)) (ih (add s x))

/-- **The value of a line is merged from its sources.** -/
theorem merges_sources (h : parse line now = .ok p) :
    Merges (sources p.value (numbers line)) {p.value} := by
  obtain ⟨m, _, -, -, hparts, hvalue, -⟩ := parse_eq_ok h
  generalize p.value = v at hvalue
  -- a value that starts with its first number needs one
  have hcons : ∀ {xs : List Float}, (parts line).mapM number = .ok xs → ∃ x rest, xs = x :: rest := by
    intro xs hxs
    cases hraws : parts line with
    | nil => exact absurd hraws hparts
    | cons raw raws =>
      rw [hraws] at hxs
      cases mapM_eq_ok_iff.mp hxs
      exact ⟨_, _, rfl⟩
  cases hkind : m.kind with
  | counter =>
    rw [hkind] at hvalue
    obtain ⟨xs, hxs, hvalue⟩ := bind_eq_ok.mp hvalue
    cases hvalue
    rw [numbers_of_mapM hxs, sources, Multiset.map_cons]
    exact merges_foldl (fun _ _ => rfl) 0 xs
  | distribution =>
    rw [hkind] at hvalue
    obtain ⟨xs, hxs, hvalue⟩ := bind_eq_ok.mp hvalue
    cases hvalue
    obtain ⟨x, rest, rfl⟩ := hcons hxs
    rw [numbers_of_mapM hxs]
    have happend : ∀ ys : List Float, rest.foldl (fun ys x => ys ++ [x]) ys = ys ++ rest := by
      intro ys
      rw [List.foldl_append_eq_append, ← List.flatMap_def, List.flatMap_singleton']
    have hfold : Merges (.distribution [x] ::ₘ (rest : Multiset Float).map fun x => .distribution [x])
        {.distribution (rest.foldl (fun ys x => ys ++ [x]) [x])} :=
      merges_foldl (fun _ _ => rfl) [x] rest
    rw [happend] at hfold
    exact hfold
  | set =>
    rw [hkind] at hvalue
    obtain ⟨_, -, hvalue⟩ := bind_eq_ok.mp hvalue
    cases hvalue
    exact .refl
  | gauge =>
    rw [hkind] at hvalue
    obtain ⟨xs, hxs, hvalue⟩ := bind_eq_ok.mp hvalue
    cases hvalue
    obtain ⟨x, rest, rfl⟩ := hcons hxs
    rw [numbers_of_mapM hxs]
    exact merges_foldl (fun _ _ => rfl) (Gauge.single x) rest

/-! ### What they say -/

/-- The numbers that are added up in a value. -/
def summands (v : Value Float) (xs : List Float) : Multiset Float :=
  match v with
  | .counter _ => 0 ::ₘ xs
  | .gauge _ => xs
  | .distribution _ | .set _ => 0

theorem totals_sources (v : Value Float) (xs : List Float) :
    (sources v xs).bind totals = summands v xs := by
  cases v with
  | counter | gauge =>
    rw [sources, Multiset.bind_map]
    exact (Multiset.bind_singleton _ id).trans (Multiset.map_id _)
  | distribution =>
    rw [sources, Multiset.bind_map]
    exact Multiset.bind_zero _
  | set => exact Multiset.singleton_bind ..

theorem isFinite_of_mem_summands {v : Value Float} {x : Float} (h : x ∈ summands v (numbers line)) :
    Binary64.isFinite x = true := by
  cases v with
  | counter =>
    rw [summands, Multiset.mem_cons] at h
    rcases h with rfl | h
    · decide
    · exact isFinite_of_mem_numbers h
  | gauge => exact isFinite_of_mem_numbers h
  | distribution | set => exact absurd h (Multiset.notMem_zero x)

/-- The numbers that a value keeps as they came are numbers of its line. -/
theorem mem_numbers_of_mem_kept (h : parse line now = .ok p) {x : Float} (hx : x ∈ p.value.kept) :
    x ∈ numbers line := by
  have hsources : ∀ w ∈ sources p.value (numbers line), ∀ x ∈ w.kept, x ∈ numbers line := by
    intro w hw x hx
    cases hv : p.value with
    | counter =>
      rw [hv, sources, Multiset.mem_map] at hw
      obtain ⟨y, -, rfl⟩ := hw
      cases hx
    | distribution | gauge =>
      rw [hv, sources, Multiset.mem_map] at hw
      obtain ⟨y, hy, rfl⟩ := hw
      simp only [kept, Gauge.single, List.mem_cons, List.not_mem_nil, or_false, or_self] at hx
      rwa [hx]
    | set =>
      rw [hv, sources, Multiset.mem_singleton] at hw
      subst hw
      cases hx
  refine (merges_sources h).forall_of_closed ?_ hsources p.value (Multiset.mem_singleton_self _) x hx
  intro v w u hv hw hmerge x hx
  rcases mem_kept_merge? hmerge hx with hx | hx
  · exact hv x hx
  · exact hw x hx

theorem sound_of_mem_sources {v w : Value Float} (h : w ∈ sources v (numbers line)) : w.Sound := by
  cases v with
  | counter | distribution =>
    rw [sources, Multiset.mem_map] at h
    obtain ⟨x, -, rfl⟩ := h
    trivial
  | set =>
    rw [Multiset.mem_singleton.mp h]
    trivial
  | gauge =>
    rw [sources, Multiset.mem_map] at h
    obtain ⟨x, hx, rfl⟩ := h
    have hfinite := isFinite_of_mem_numbers hx
    exact ⟨(by decide : (1 : UInt64) ≠ 0), hfinite, hfinite⟩

theorem sum_count_sources_le (v : Value Float) (xs : List Float) :
    ((sources v xs).map count).sum ≤ xs.length := by
  cases v with
  | counter | distribution | set => simp [sources, count, Function.comp_def]
  | gauge => simp [sources, count, Gauge.single, Function.comp_def]

end Telemetry.Line

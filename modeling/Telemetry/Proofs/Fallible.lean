import Mathlib.Data.List.Forall2

/-!
# Computations that can fail

When a sequence of steps, a map over a list or a fold over a list succeeds: exactly if each of its
steps does.  What every step keeps, a fold keeps, and what every step does, a fold does in order.
-/

namespace Telemetry

variable {ε α β γ : Type}

@[simp] theorem pure_eq_ok (a : α) : (pure a : Except ε α) = .ok a := rfl

@[simp] theorem ok_bind (a : α) (f : α → Except ε β) : (Except.ok a >>= f) = f a := rfl

theorem bind_eq_ok {x : Except ε α} {f : α → Except ε β} {b : β} :
    x >>= f = .ok b ↔ ∃ a, x = .ok a ∧ f a = .ok b := by
  cases x with
  | error e =>
    constructor
    · intro h
      cases h
    · rintro ⟨a, ⟨⟩, -⟩
  | ok a =>
    constructor
    · intro h
      exact ⟨a, rfl, h⟩
    · rintro ⟨_, ⟨⟩, h⟩
      exact h

theorem map_eq_ok {x : Except ε α} {f : α → β} {b : β} : x.map f = .ok b ↔ ∃ a, x = .ok a ∧ f a = b := by
  cases x <;> simp [Except.map]

theorem mapError_eq_ok {ε' : Type} {x : Except ε α} {f : ε → ε'} {a : α} :
    x.mapError f = .ok a ↔ x = .ok a := by
  cases x <;> simp [Except.mapError]

theorem toOption_mapError {ε' : Type} (x : Except ε α) (f : ε → ε') :
    (x.mapError f).toOption = x.toOption := by
  cases x <;> rfl

theorem toOption_eq_some {x : Except ε α} {a : α} : x.toOption = some a ↔ x = .ok a := by
  cases x <;> simp [Except.toOption]

/-- A map succeeds if it does so at every place. -/
theorem mapM_eq_ok_iff {f : α → Except ε β} {l : List α} {results : List β} :
    l.mapM f = .ok results ↔ List.Forall₂ (fun a b => f a = .ok b) l results := by
  induction l generalizing results with
  | nil =>
    rw [List.mapM_nil, List.forall₂_nil_left_iff]
    constructor
    · rintro ⟨⟩
      rfl
    · rintro rfl
      rfl
  | cons a rest ih =>
    rw [List.mapM_cons, List.forall₂_cons_left_iff]
    constructor
    · intro h
      obtain ⟨b, hb, h⟩ := bind_eq_ok.mp h
      obtain ⟨more, hmore, h⟩ := bind_eq_ok.mp h
      cases h
      exact ⟨b, more, hb, ih.mp hmore, rfl⟩
    · rintro ⟨b, more, hb, hmore, rfl⟩
      exact bind_eq_ok.mpr ⟨b, hb, bind_eq_ok.mpr ⟨more, ih.mpr hmore, rfl⟩⟩

/-- A map whose steps succeed under a condition, and then with a result that is known. -/
theorem mapM_eq_ok_iff_map {f : α → Except ε β} {P : α → Prop} {g : α → β}
    (hf : ∀ a b, f a = .ok b ↔ P a ∧ g a = b) {l : List α} {results : List β} :
    l.mapM f = .ok results ↔ (∀ a ∈ l, P a) ∧ l.map g = results := by
  rw [mapM_eq_ok_iff]
  simp only [hf]
  rw [List.forall₂_and_left, ← List.forall₂_map_left_iff, List.forall₂_eq_eq_eq]

/-- A map whose steps succeed. -/
theorem mapM_eq_ok_map {f : α → Except ε β} {g : α → β} (hf : ∀ a, f a = .ok (g a)) (l : List α) :
    l.mapM f = .ok (l.map g) := by
  refine (mapM_eq_ok_iff_map (P := fun _ => True) ?_).mpr ⟨fun _ _ => trivial, rfl⟩
  intro a b
  rw [hf, Except.ok.injEq, true_and]

/-- A map whose steps succeed under a condition where an optional result is known. -/
theorem mapM_eq_ok_iff_filterMap {f : α → Except ε β} {P : α → Prop} {g : α → Option β}
    (hf : ∀ a b, f a = .ok b ↔ P a ∧ g a = some b) {l : List α} {results : List β} :
    l.mapM f = .ok results ↔ (∀ a ∈ l, P a ∧ (g a).isSome) ∧ l.filterMap g = results := by
  rw [mapM_eq_ok_iff]
  simp only [hf]
  induction l generalizing results with
  | nil =>
    rw [List.forall₂_nil_left_iff]
    exact ⟨fun h => ⟨List.forall_mem_nil _, h.symm⟩, fun h => h.2.symm⟩
  | cons a rest ih =>
    rw [List.forall₂_cons_left_iff, List.forall_mem_cons, List.filterMap_cons]
    simp only [ih]
    cases g a with
    | none => simp
    | some b =>
      constructor
      · rintro ⟨_, more, ⟨ha, ⟨⟩⟩, ⟨hrest, rfl⟩, rfl⟩
        exact ⟨⟨⟨ha, rfl⟩, hrest⟩, rfl⟩
      · rintro ⟨⟨⟨ha, -⟩, hrest⟩, rfl⟩
        exact ⟨b, _, ⟨ha, rfl⟩, ⟨hrest, rfl⟩, rfl⟩

/-- A map succeeds if each place is the text of something, and then with the results of these. -/
theorem mapM_eq_ok_iff_exists {f : α → Except ε β} {text : γ → α} {result : γ → β}
    (hf : ∀ a b, f a = .ok b ↔ ∃ c, text c = a ∧ result c = b) {l : List α} {results : List β} :
    l.mapM f = .ok results ↔ ∃ cs : List γ, cs.map text = l ∧ cs.map result = results := by
  rw [mapM_eq_ok_iff]
  simp only [hf]
  constructor
  · intro h
    induction h with
    | nil => exact ⟨[], rfl, rfl⟩
    | cons hab _ ih =>
      obtain ⟨c, rfl, rfl⟩ := hab
      obtain ⟨cs, rfl, rfl⟩ := ih
      exact ⟨c :: cs, rfl, rfl⟩
  · rintro ⟨cs, rfl, rfl⟩
    rw [List.forall₂_map_left_iff, List.forall₂_map_right_iff, List.forall₂_same]
    exact fun c _ => ⟨c, rfl, rfl⟩

theorem mem_of_mapM_eq_ok {f : α → Except ε β} {l : List α} {results : List β}
    (h : l.mapM f = .ok results) : ∀ b ∈ results, ∃ a ∈ l, f a = .ok b := by
  induction mapM_eq_ok_iff.mp h with
  | nil => exact List.forall_mem_nil _
  | @cons a b rest more hab hrest ih =>
    refine List.forall_mem_cons.mpr ⟨⟨a, List.mem_cons_self, hab⟩, ?_⟩
    intro c hc
    obtain ⟨a', ha', hfa'⟩ := ih (mapM_eq_ok_iff.mpr hrest) c hc
    exact ⟨a', List.mem_cons_of_mem _ ha', hfa'⟩

/-- What each step carries over holds of all results if it holds at every place. -/
theorem forall_iff_of_mapM_eq_ok {f : α → Except ε β} {P : α → Prop} {Q : β → Prop}
    {l : List α} {results : List β} (h : l.mapM f = .ok results)
    (hf : ∀ a ∈ l, ∀ b, f a = .ok b → (Q b ↔ P a)) : (∀ b ∈ results, Q b) ↔ ∀ a ∈ l, P a := by
  induction mapM_eq_ok_iff.mp h with
  | nil => simp
  | @cons a b rest more hab hrest ih =>
    obtain ⟨ha, hrest'⟩ := List.forall_mem_cons.mp hf
    rw [List.forall_mem_cons, List.forall_mem_cons, ha b hab, ih (mapM_eq_ok_iff.mpr hrest) hrest']

theorem exists_iff_of_mapM_eq_ok {f : α → Except ε β} {P : α → Prop} {Q : β → Prop}
    {l : List α} {results : List β} (h : l.mapM f = .ok results)
    (hf : ∀ a ∈ l, ∀ b, f a = .ok b → (Q b ↔ P a)) : (∃ b ∈ results, Q b) ↔ ∃ a ∈ l, P a := by
  have := forall_iff_of_mapM_eq_ok (P := fun a => ¬P a) (Q := fun b => ¬Q b) h
    fun a ha b hb => not_congr (hf a ha b hb)
  simpa using not_congr this

/-- What holds at the start of a fold and is kept by every step that succeeds holds at its end. -/
theorem foldlM_induction {f : β → α → Except ε β} {P : β → Prop} {l : List α} {b r : β}
    (hstart : P b) (hstep : ∀ b, P b → ∀ a ∈ l, ∀ b', f b a = .ok b' → P b')
    (h : l.foldlM f b = .ok r) : P r := by
  induction l generalizing b with
  | nil =>
    cases h
    exact hstart
  | cons a rest ih =>
    rw [List.foldlM_cons] at h
    obtain ⟨b', hb', h⟩ := bind_eq_ok.mp h
    have hnext : P b' := hstep b hstart a List.mem_cons_self b' hb'
    apply ih hnext _ h
    intro b hb a' ha'
    exact hstep b hb a' (List.mem_cons_of_mem _ ha')

/-- A fold succeeds if each place is the text of something, and then it has the effects of these. -/
theorem foldlM_eq_ok_iff {f : β → α → Except ε β} {holds : γ → Prop} {text : γ → α} {effect : β → γ → β}
    {l : List α}
    (hstep : ∀ a ∈ l, ∀ b b', f b a = .ok b' ↔ ∃ c, holds c ∧ text c = a ∧ effect b c = b') {b r : β} :
    l.foldlM f b = .ok r ↔ ∃ cs : List γ, (∀ c ∈ cs, holds c) ∧ cs.map text = l ∧ cs.foldl effect b = r := by
  induction l generalizing b with
  | nil =>
    constructor
    · rintro ⟨⟩
      exact ⟨[], List.forall_mem_nil _, rfl, rfl⟩
    · rintro ⟨cs, -, hcs, rfl⟩
      rw [List.map_eq_nil_iff.mp hcs]
      rfl
  | cons a rest ih =>
    obtain ⟨ha, hrest⟩ := List.forall_mem_cons.mp hstep
    rw [List.foldlM_cons, bind_eq_ok]
    constructor
    · rintro ⟨b', hb', h⟩
      obtain ⟨c, hc, rfl, rfl⟩ := (ha b b').mp hb'
      obtain ⟨cs, hcs, rfl, rfl⟩ := (ih hrest).mp h
      exact ⟨c :: cs, List.forall_mem_cons.mpr ⟨hc, hcs⟩, rfl, rfl⟩
    · rintro ⟨cs, hcs, htext, rfl⟩
      obtain ⟨c, cs, rfl, hc, hrest'⟩ := List.map_eq_cons_iff.mp htext
      obtain ⟨hholds, hcs⟩ := List.forall_mem_cons.mp hcs
      exact ⟨_, (ha b _).mpr ⟨c, hholds, hc, rfl⟩, (ih hrest).mpr ⟨cs, hcs, hrest', rfl⟩⟩

/-- Errors can be translated after a map or at each of its steps. -/
theorem mapM_eq_mapError {ε' : Type} {f : α → Except ε' β} {g : α → Except ε β} {e : ε → ε'} {l : List α}
    (h : ∀ a ∈ l, f a = (g a).mapError e) : l.mapM f = (l.mapM g).mapError e := by
  induction l with
  | nil => rfl
  | cons a rest ih =>
    obtain ⟨ha, hrest⟩ := List.forall_mem_cons.mp h
    rw [List.mapM_cons, List.mapM_cons, ha, ih hrest]
    cases g a with
    | error e => rfl
    | ok b => cases rest.mapM g <;> rfl

/-- Errors can be translated after a fold or at each of its steps. -/
theorem foldlM_mapError {ε' : Type} (f : β → α → Except ε β) (g : ε → ε') (l : List α) (b : β) :
    l.foldlM (fun b a => (f b a).mapError g) b = (l.foldlM f b).mapError g := by
  induction l generalizing b with
  | nil => rfl
  | cons a rest ih =>
    rw [List.foldlM_cons, List.foldlM_cons]
    cases f b a with
    | error e => rfl
    | ok b' => exact ih b'

/-- Each place has a result if there is a list of results. -/
theorem exists_forall₂_iff {R : α → β → Prop} {l : List α} :
    (∃ results, List.Forall₂ R l results) ↔ ∀ a ∈ l, ∃ b, R a b := by
  induction l with
  | nil => exact iff_of_true ⟨[], .nil⟩ (List.forall_mem_nil _)
  | cons a rest ih =>
    rw [List.forall_mem_cons, ← ih]
    constructor
    · rintro ⟨_, _ | ⟨hb, hmore⟩⟩
      exact ⟨⟨_, hb⟩, _, hmore⟩
    · rintro ⟨⟨b, hb⟩, more, hmore⟩
      exact ⟨b :: more, .cons hb hmore⟩

end Telemetry

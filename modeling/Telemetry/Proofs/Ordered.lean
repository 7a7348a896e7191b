import Mathlib.Data.List.Induction
import Mathlib.Data.List.Sort
import Telemetry.Ordered

/-!
# Maps in key order

Inserting keeps the order, and a list that is in order is the map of its own entries
(`ofList_of_sorted`).  A map says of each key what the last of its entries says (`get?_ofList`), and is
no more than what it says (`Sorted.ext`).  The order of the keys has to be a strict total one, as that of
byte strings is.
-/

namespace Telemetry.Ordered

variable {κ ν : Type} [LT κ] {k : κ} {v : ν} {entries others : List (κ × ν)}

theorem sorted_nil : Sorted ([] : List (κ × ν)) := List.Pairwise.nil

instance [DecidableLT κ] (entries : List (κ × ν)) : Decidable (Sorted entries) :=
  inferInstanceAs (Decidable (entries.Pairwise fun a b => a.1 < b.1))

/-- The order concerns the keys alone. -/
theorem sorted_iff_keys : Sorted entries ↔ (entries.map Prod.fst).Pairwise (· < ·) := by
  rw [List.pairwise_map]
  rfl

variable [DecidableEq κ] [DecidableLT κ]

omit [LT κ] [DecidableLT κ] in
theorem mem_of_get? (h : get? k entries = some v) : (k, v) ∈ entries := by
  induction entries with
  | nil => cases h
  | cons e rest ih =>
    obtain ⟨k', v'⟩ := e
    rw [get?] at h
    split at h
    · next hk =>
      cases h
      rw [hk]
      exact List.mem_cons_self
    · exact List.mem_cons_of_mem _ (ih h)

theorem mem_insert {e : κ × ν} (h : e ∈ insert k v entries) : e = (k, v) ∨ e ∈ entries := by
  induction entries with
  | nil => exact Or.inl (List.mem_singleton.mp h)
  | cons first rest ih =>
    obtain ⟨k', v'⟩ := first
    rw [insert] at h
    split at h
    · exact List.mem_cons.mp h
    · split at h
      · rcases List.mem_cons.mp h with h | h
        · exact Or.inl h
        · exact Or.inr (List.mem_cons_of_mem _ h)
      · rcases List.mem_cons.mp h with h | h
        · rw [h]
          exact Or.inr List.mem_cons_self
        · rcases ih h with h | h
          · exact Or.inl h
          · exact Or.inr (List.mem_cons_of_mem _ h)

omit [LT κ] [DecidableLT κ] in
/-- A key is missing if no entry has it. -/
theorem get?_eq_none_iff : get? k entries = none ↔ k ∉ entries.map Prod.fst := by
  induction entries with
  | nil => simp
  | cons e rest ih =>
    obtain ⟨k', v'⟩ := e
    rw [get?, List.map_cons, List.mem_cons]
    split
    · next heq => simp [heq]
    · next hne => simp [hne, ih]

omit [LT κ] [DecidableLT κ] in
/-- The first entry of a key counts. -/
theorem get?_eq_find? (k : κ) (entries : List (κ × ν)) :
    get? k entries = (entries.find? fun e => e.1 = k).map Prod.snd := by
  induction entries with
  | nil => rfl
  | cons e rest ih =>
    obtain ⟨k', v⟩ := e
    by_cases h : k = k'
    · simp [get?, h]
    · simp [get?, h, Ne.symm h, ih]

omit [LT κ] [DecidableLT κ] in
/-- Changing the values of a map changes what it says in the same way. -/
theorem get?_map {μ : Type} (f : ν → μ) (k : κ) (entries : List (κ × ν)) :
    get? k (entries.map fun e => (e.1, f e.2)) = (get? k entries).map f := by
  induction entries with
  | nil => rfl
  | cons e rest ih =>
    obtain ⟨k', v⟩ := e
    rw [List.map_cons, get?, get?, ih]
    split <;> rfl

omit [LT κ] [DecidableLT κ] in
theorem get?_erase_of_ne {k' : κ} (h : k' ≠ k) (entries : List (κ × ν)) :
    get? k' (erase k entries) = get? k' entries := by
  induction entries with
  | nil => rfl
  | cons e rest ih =>
    obtain ⟨name, v⟩ := e
    rw [erase] at ih ⊢
    rw [List.filter_cons]
    by_cases hname : name = k
    · have hk : k' ≠ name := by rwa [hname]
      rw [if_neg (by simp [hname]), ih, get?, if_neg hk]
    · rw [if_pos (by simp [hname]), get?, get?, ih]

omit [LT κ] [DecidableLT κ] in
theorem get?_erase_self (k : κ) (entries : List (κ × ν)) : get? k (erase k entries) = none :=
  get?_eq_none_iff.mpr (by simp [erase])

/-- What is there already stays. -/
theorem get?_insertNew (k k' : κ) (v : ν) (entries : List (κ × ν)) : get? k' (insertNew k v entries) =
    (get? k' entries).or (if k' = k then some v else none) := by
  unfold insertNew
  split
  · next hsome =>
    obtain ⟨w, hw⟩ := Option.isSome_iff_exists.mp hsome
    split
    · next heq => rw [heq, hw, Option.some_or]
    · rw [Option.or_none]
  · next hnone =>
    split
    · next heq =>
      rw [heq, get?_insert_self, Option.not_isSome_iff_eq_none.mp hnone, Option.none_or]
    · next hne => rw [get?_insert_of_ne hne, Option.or_none]

theorem mem_keys_insert {k' : κ} :
    k' ∈ (insert k v entries).map Prod.fst ↔ k' = k ∨ k' ∈ entries.map Prod.fst := by
  by_cases h : k' = k
  · subst h
    refine iff_of_true ?_ (Or.inl rfl)
    exact List.mem_map_of_mem (mem_of_get? (get?_insert_self k' v entries))
  · rw [or_iff_right h, ← Decidable.not_iff_not, ← get?_eq_none_iff, ← get?_eq_none_iff,
      get?_insert_of_ne h]

theorem mem_keys_foldl_insert {before : List (κ × ν)} :
    k ∈ (entries.foldl (fun m e => insert e.1 e.2 m) before).map Prod.fst ↔
      k ∈ before.map Prod.fst ∨ k ∈ entries.map Prod.fst := by
  induction entries generalizing before with
  | nil => simp
  | cons e rest ih =>
    rw [List.foldl_cons, ih, mem_keys_insert, List.map_cons, List.mem_cons, or_assoc]
    exact or_left_comm

/-- A map has the keys of the entries that it was made of. -/
theorem mem_keys_ofList : k ∈ (ofList entries).map Prod.fst ↔ k ∈ entries.map Prod.fst := by
  rw [ofList, mem_keys_foldl_insert]
  simp

omit [LT κ] [DecidableLT κ] in
theorem get?_append (k : κ) (entries others : List (κ × ν)) :
    get? k (entries ++ others) = (get? k entries).or (get? k others) := by
  induction entries with
  | nil => rfl
  | cons e rest ih =>
    obtain ⟨k', v⟩ := e
    rw [List.cons_append, get?, get?, ih]
    split <;> rfl

/-- After some insertions a key has the value of the last one, or the value that it had before. -/
theorem get?_foldl_insert (k : κ) (entries before : List (κ × ν)) :
    get? k (entries.foldl (fun m e => insert e.1 e.2 m) before) =
      (get? k entries.reverse).or (get? k before) := by
  induction entries generalizing before with
  | nil => rfl
  | cons e rest ih =>
    obtain ⟨k', v⟩ := e
    have hfirst : get? k (insert k' v before) = (get? k [(k', v)]).or (get? k before) := by
      rw [get?]
      split
      · next h => rw [h, get?_insert_self, Option.some_or]
      · next h => rw [get?_insert_of_ne h, get?_nil, Option.none_or]
    rw [List.foldl_cons, ih, hfirst, List.reverse_cons, get?_append, Option.or_assoc]

/-- Of the entries of one key the last one wins. -/
theorem get?_ofList (k : κ) (entries : List (κ × ν)) :
    get? k (ofList entries) = get? k entries.reverse := by
  rw [ofList, get?_foldl_insert, get?_nil, Option.or_none]

section Total

variable [Std.Trichotomous (α := κ) (· < ·)]
  [Trans (α := κ) (β := κ) (γ := κ) (· < ·) (· < ·) (· < ·)]

theorem Sorted.insert (h : Sorted entries) : Sorted (insert k v entries) := by
  induction entries with
  | nil => exact List.pairwise_singleton _ _
  | cons e rest ih =>
    obtain ⟨k', v'⟩ := e
    obtain ⟨hhead, hrest⟩ := List.pairwise_cons.mp h
    unfold Ordered.insert
    split
    · next hlt =>
      refine List.pairwise_cons.mpr ⟨?_, h⟩
      intro e he
      rcases List.mem_cons.mp he with rfl | he
      · exact hlt
      · exact Trans.trans hlt (hhead e he)
    · next hnot =>
      split
      · next heq =>
        subst heq
        exact List.pairwise_cons.mpr ⟨hhead, hrest⟩
      · next hne =>
        refine List.pairwise_cons.mpr ⟨?_, ih hrest⟩
        intro e he
        rcases mem_insert he with rfl | he
        · rcases Std.Trichotomous.rel_or_eq_or_rel_swap (r := (· < ·)) (a := k) (b := k') with h | h | h
          · exact absurd h hnot
          · exact absurd h hne
          · exact h
        · exact hhead e he

theorem Sorted.insertNew (h : Sorted entries) : Sorted (insertNew k v entries) := by
  unfold Ordered.insertNew
  split
  · exact h
  · exact h.insert

theorem Sorted.foldl_insert {before : List (κ × ν)} (h : Sorted before) :
    Sorted (entries.foldl (fun m e => Ordered.insert e.1 e.2 m) before) := by
  induction entries generalizing before with
  | nil => exact h
  | cons e rest ih => exact ih h.insert

theorem sorted_ofList : Sorted (ofList entries) := sorted_nil.foldl_insert

end Total

section Asymmetric

variable [Std.Asymm (α := κ) (· < ·)]

omit [DecidableEq κ] [DecidableLT κ] in
/-- No key comes twice. -/
theorem Sorted.nodup_keys (h : Sorted entries) : (entries.map Prod.fst).Nodup := by
  refine (sorted_iff_keys.mp h).imp ?_
  rintro k k' hlt rfl
  exact Std.Asymm.asymm _ _ hlt hlt

omit [DecidableLT κ] in
/-- A map has each of its entries. -/
theorem Sorted.get?_of_mem (h : Sorted entries) (hmem : (k, v) ∈ entries) :
    get? k entries = some v := by
  induction entries with
  | nil => cases hmem
  | cons e rest ih =>
    obtain ⟨k', v'⟩ := e
    obtain ⟨hhead, hrest⟩ := List.pairwise_cons.mp h
    rcases List.mem_cons.mp hmem with heq | htail
    · cases heq
      exact if_pos rfl
    · have hlt : k' < k := hhead _ htail
      have hne : k ≠ k' := by
        rintro rfl
        exact Std.Asymm.asymm _ _ hlt hlt
      rw [get?, if_neg hne, ih hrest htail]

omit [DecidableLT κ] in
/-- **A map is what it says about each key.** -/
theorem Sorted.ext (h : Sorted entries) (hothers : Sorted others)
    (hget : ∀ k, get? k entries = get? k others) : entries = others := by
  let below : κ × ν → κ × ν → Prop := fun a b => a.1 < b.1
  have : Std.Irrefl below := ⟨fun a hlt => Std.Asymm.asymm _ _ hlt hlt⟩
  have : Std.Antisymm below := ⟨fun a b hab hba => absurd hba (Std.Asymm.asymm _ _ hab)⟩
  apply List.Pairwise.eq_of_mem_iff (r := below) h hothers
  rintro ⟨k, v⟩
  constructor
  · intro hmem
    exact mem_of_get? ((hget k).symm.trans (h.get?_of_mem hmem))
  · intro hmem
    exact mem_of_get? ((hget k).trans (hothers.get?_of_mem hmem))

/-- Inserting what is there already changes nothing. -/
theorem Sorted.insert_of_get? [Std.Trichotomous (α := κ) (· < ·)]
    [Trans (α := κ) (β := κ) (γ := κ) (· < ·) (· < ·) (· < ·)] (h : Sorted entries)
    (hv : get? k entries = some v) : Ordered.insert k v entries = entries := by
  refine h.insert.ext h fun k' => ?_
  by_cases hk : k' = k
  · rw [hk, get?_insert_self, hv]
  · exact get?_insert_of_ne hk v entries

/-- Repeating some insertions changes nothing. -/
theorem Sorted.foldl_insert_foldl_insert [Std.Trichotomous (α := κ) (· < ·)]
    [Trans (α := κ) (β := κ) (γ := κ) (· < ·) (· < ·) (· < ·)] {before : List (κ × ν)} (h : Sorted before)
    (entries : List (κ × ν)) :
    entries.foldl (fun m e => Ordered.insert e.1 e.2 m)
        (entries.foldl (fun m e => Ordered.insert e.1 e.2 m) before) =
      entries.foldl (fun m e => Ordered.insert e.1 e.2 m) before := by
  refine h.foldl_insert.foldl_insert.ext h.foldl_insert fun k => ?_
  rw [get?_foldl_insert, get?_foldl_insert, ← Option.or_assoc, Option.or_self]

/-- The later of two insertions of a key counts. -/
theorem insert_insert_self (k : κ) (v w : ν) (entries : List (κ × ν)) :
    insert k v (insert k w entries) = insert k v entries := by
  have hirrefl : ¬ k < k := fun h => Std.Asymm.asymm _ _ h h
  induction entries with
  | nil => simp [insert, hirrefl]
  | cons e rest ih =>
    obtain ⟨k', w'⟩ := e
    by_cases hlt : k < k'
    · simp [insert, hlt, hirrefl]
    · by_cases heq : k = k'
      · subst heq
        simp [insert, hirrefl]
      · simp [insert, hlt, heq, ih]

/-- A key above all others goes to the end. -/
theorem insert_eq_append (h : ∀ e ∈ entries, e.1 < k) : insert k v entries = entries ++ [(k, v)] := by
  induction entries with
  | nil => rfl
  | cons e rest ih =>
    obtain ⟨k', v'⟩ := e
    have hlt : k' < k := h _ List.mem_cons_self
    have hne : k ≠ k' := by
      rintro rfl
      exact Std.Asymm.asymm _ _ hlt hlt
    rw [insert, if_neg (Std.Asymm.asymm _ _ hlt), if_neg hne,
      ih fun e he => h e (List.mem_cons_of_mem _ he)]
    rfl

omit [DecidableEq κ] [DecidableLT κ] in
theorem ne_of_lt {k' : κ} (h : k < k') : k' ≠ k := by
  rintro rfl
  exact Std.Asymm.asymm _ _ h h

/-- Insertions of different keys commute, whatever the order of the entries. -/
theorem insert_comm [Trans (α := κ) (β := κ) (γ := κ) (· < ·) (· < ·) (· < ·)] {k' : κ} (h : k < k')
    (v v' : ν) (entries : List (κ × ν)) :
    insert k v (insert k' v' entries) = insert k' v' (insert k v entries) := by
  have hback : ¬ k' < k := Std.Asymm.asymm _ _ h
  have hne : k' ≠ k := ne_of_lt h
  induction entries with
  | nil => simp [insert, h, hback, hne]
  | cons e rest ih =>
    obtain ⟨c, w⟩ := e
    by_cases hlt : k' < c
    · have hkc : k < c := Trans.trans h hlt
      simp [insert, h, hback, hne, hlt, hkc]
    · by_cases heq : k' = c
      · subst heq
        simp [insert, h, hback, hne, hlt]
      · rw [insert, if_neg hlt, if_neg heq, insert, insert]
        split
        · simp [insert, hback, hne, hlt, heq]
        · split
          · simp [insert, hback, hne]
          · rw [ih, insert, if_neg hlt, if_neg heq]

/-- Erasing a smaller key commutes with an insertion. -/
theorem erase_insert [Trans (α := κ) (β := κ) (γ := κ) (· < ·) (· < ·) (· < ·)] {k' : κ} (h : k < k')
    (v : ν) (entries : List (κ × ν)) :
    erase k (insert k' v entries) = insert k' v (erase k entries) := by
  have hne : k' ≠ k := ne_of_lt h
  unfold erase
  induction entries with
  | nil => simp [insert, hne]
  | cons e rest ih =>
    obtain ⟨c, w⟩ := e
    by_cases hlt : k' < c
    · have hkc : k < c := Trans.trans h hlt
      have hkc : c ≠ k := ne_of_lt hkc
      simp [insert, hne, hlt, hkc]
    · by_cases heq : k' = c
      · subst heq
        simp [insert, hne, hlt]
      · rw [insert, if_neg hlt, if_neg heq, List.filter_cons, List.filter_cons, ih]
        split
        · rw [insert, if_neg hlt, if_neg heq]
        · rfl

theorem foldl_insert_of_sorted {before : List (κ × ν)} (h : Sorted (before ++ entries)) :
    entries.foldl (fun m e => insert e.1 e.2 m) before = before ++ entries := by
  induction entries generalizing before with
  | nil => simp
  | cons e rest ih =>
    have hlast : insert e.1 e.2 before = before ++ [e] := by
      apply insert_eq_append
      intro e' he'
      exact (List.pairwise_append.mp h).2.2 e' he' e List.mem_cons_self
    rw [List.foldl_cons, hlast, ih (by simpa using h)]
    simp

/-- **A list in key order is the map of its entries.** -/
theorem ofList_of_sorted (h : Sorted entries) : ofList entries = entries := by
  have hsorted : Sorted ([] ++ entries) := h
  exact foldl_insert_of_sorted hsorted

end Asymmetric

end Telemetry.Ordered

import Telemetry.Json.Reader
import Telemetry.Json.Writer
import Telemetry.Proofs.Json.InOrder

/-!
# Values that have a text

What the reader returns has UTF-8 strings only (`parse?_encodable`), and so has whatever is built
from it with names that are UTF-8.  Such a value has a text.  The reader puts members in order as well, and
one induction over it shows both (`parse?_formed`).
-/

namespace Telemetry

namespace Utf8

/-- Folding case changes no step: capital and small letters are characters of one byte. -/
theorem step_lowerByte (state : Expect) (b : UInt8) : step state (Bytes.lowerByte b) = step state b := by
  rw [Bytes.lowerByte]
  split
  · next hupper =>
    obtain ⟨hfirst, hlast⟩ := Bool.and_eq_true_iff.mp hupper
    have hlow : 65 ≤ b.toNat := UInt8.le_iff_toNat_le.mp (of_decide_eq_true hfirst)
    have hhigh : b.toNat ≤ 90 := UInt8.le_iff_toNat_le.mp (of_decide_eq_true hlast)
    obtain ⟨n, hn⟩ : ∃ n : Fin 26, UInt8.ofNat (65 + n) = b := by
      refine ⟨⟨b.toNat - 65, by omega⟩, ?_⟩
      rw [Nat.add_sub_cancel' hlow, UInt8.ofNat_toNat]
    subst hn
    revert n
    cases state <;> decide
  · rfl

theorem valid_lower {s : Bytes} (h : valid s = true) : valid (Bytes.lower s) = true := by
  have hrun : ∀ state, run state (Bytes.lower s) = run state s := by
    clear h
    induction s with
    | nil => exact fun _ => rfl
    | cons b rest ih =>
      intro state
      change (step state (Bytes.lowerByte b)).bind (fun next => run next (Bytes.lower rest)) = _
      rw [step_lowerByte, run]
      exact congrArg _ (funext ih)
  rw [valid, hrun]
  exact h

end Utf8

namespace Json

/-! ## Members -/

/-- Names and values are UTF-8. -/
def EncodableMembers (members : List (Bytes × Json)) : Prop :=
  ∀ m ∈ members, Utf8.valid m.1 = true ∧ m.2.encodable = true

theorem encodable_array {items : List Json} :
    (array items).encodable = true ↔ ∀ j ∈ items, j.encodable = true := by
  rw [encodable]
  induction items with
  | nil => simp [encodableItems]
  | cons j rest ih =>
    rw [encodableItems, Bool.and_eq_true, ih, List.forall_mem_cons]

theorem encodable_object {members : List (Bytes × Json)} :
    (object members).encodable = true ↔ EncodableMembers members := by
  rw [encodable]
  induction members with
  | nil => simp [encodableMembers, EncodableMembers]
  | cons m rest ih =>
    obtain ⟨name, j⟩ := m
    rw [encodableMembers, Bool.and_eq_true, Bool.and_eq_true, ih, EncodableMembers, EncodableMembers,
      List.forall_mem_cons]

namespace EncodableMembers

theorem nil : EncodableMembers [] := fun _ h => nomatch h

theorem insert {members : List (Bytes × Json)} (h : EncodableMembers members) {name : Bytes}
    {j : Json} (hname : Utf8.valid name = true) (hj : j.encodable = true) :
    EncodableMembers (Ordered.insert name j members) := by
  intro m hm
  rcases Ordered.mem_insert hm with rfl | hm
  · exact ⟨hname, hj⟩
  · exact h m hm

theorem insertNew {members : List (Bytes × Json)} (h : EncodableMembers members) {name : Bytes}
    {j : Json} (hname : Utf8.valid name = true) (hj : j.encodable = true) :
    EncodableMembers (Ordered.insertNew name j members) := by
  rw [Ordered.insertNew]
  split
  · exact h
  · exact h.insert hname hj

theorem ofList {members : List (Bytes × Json)} (h : EncodableMembers members) :
    EncodableMembers (Ordered.ofList members) := by
  refine List.foldlRecOn members _ .nil fun kept hkept m hm => ?_
  exact hkept.insert (h m hm).1 (h m hm).2

end EncodableMembers

theorem encodable_of_get? {j v : Json} {name : Bytes} (h : j.encodable = true)
    (hv : j.get? name = some v) : v.encodable = true := by
  cases j with
  | object members => exact (encodable_object.mp h _ (Ordered.mem_of_get? hv)).2
  | _ => cases hv

theorem encodable_set {j v : Json} {name : Bytes} (h : j.encodable = true)
    (hname : Utf8.valid name = true) (hv : v.encodable = true) : (j.set name v).encodable = true := by
  cases j with
  | object members => exact encodable_object.mpr ((encodable_object.mp h).insert hname hv)
  | _ => exact h

theorem encodable_erase {j : Json} (name : Bytes) (h : j.encodable = true) :
    (j.erase name).encodable = true := by
  cases j with
  | object members =>
    refine encodable_object.mpr fun m hm => encodable_object.mp h m ?_
    exact (List.mem_filter.mp hm).1
  | _ => exact h

theorem valid_of_string? {j : Json} {s : Bytes} (h : j.encodable = true) (hs : j.string? = some s) :
    Utf8.valid s = true := by
  cases j with
  | string t =>
    cases hs
    rwa [encodable] at h
  | _ => cases hs

/-- The items of a list that a member may be. -/
theorem encodable_of_mem_items {j item : Json} {name : Bytes} (h : j.encodable = true)
    (hitem : item ∈ ((j.get? name).bind array?).getD []) : item.encodable = true := by
  cases hget : j.get? name with
  | none =>
    rw [hget] at hitem
    cases hitem
  | some v =>
    rw [hget] at hitem
    cases v with
    | array items => exact encodable_array.mp (encodable_of_get? h hget) item hitem
    | _ => cases hitem

/-! ## The reader -/

/-- What a reader returns: strings are UTF-8 and members in order. -/
def Formed (j : Json) : Prop := j.encodable = true ∧ j.InOrder

def FormedMembers (members : List (Bytes × Json)) : Prop :=
  EncodableMembers members ∧ Ordered.Sorted members ∧ ∀ m ∈ members, m.2.InOrder

theorem formed_array {items : List Json} : (array items).Formed ↔ ∀ j ∈ items, j.Formed := by
  rw [Formed, encodable_array, inOrder_array]
  exact forall₂_and.symm

theorem formed_object {members : List (Bytes × Json)} : (object members).Formed ↔ FormedMembers members := by
  rw [Formed, encodable_object, inOrder_object, FormedMembers]

namespace FormedMembers

theorem nil : FormedMembers [] := ⟨.nil, Ordered.sorted_nil, List.forall_mem_nil _⟩

theorem insert {members : List (Bytes × Json)} (h : FormedMembers members) {name : Bytes} {j : Json}
    (hname : Utf8.valid name = true) (hj : j.Formed) : FormedMembers (Ordered.insert name j members) := by
  obtain ⟨hencodable, hsorted, hmembers⟩ := h
  refine ⟨hencodable.insert hname hj.1, hsorted.insert, ?_⟩
  intro m hm
  rcases Ordered.mem_insert hm with rfl | hm
  · exact hj.2
  · exact hmembers m hm

end FormedMembers

theorem scanString_valid {text s rest : Bytes} (h : scanString text = some (s, rest)) :
    Utf8.valid s = true := by
  obtain ⟨⟨chars, after⟩, -, h⟩ := Option.bind_eq_some_iff.mp h
  dsimp only at h
  split at h
  · next hvalid =>
    cases h
    exact hvalid
  · cases h

theorem scanWord_eq {word : String} {value j : Json} {text rest : Bytes}
    (h : scanWord word value text = some (j, rest)) : j = value := by
  obtain ⟨after, -, h⟩ := Option.map_eq_some_iff.mp h
  cases h
  rfl

/-- What the bounded readers return. -/
structure ReadsFormed (bound : Nat) : Prop where
  value : ∀ text j rest, scanValue bound text = some (j, rest) → j.Formed
  items : ∀ text items rest, scanItems bound text = some (items, rest) →
    ∀ j ∈ items, j.Formed
  members : ∀ before text members rest, FormedMembers before →
    scanMembers bound before text = some (members, rest) → FormedMembers members

namespace ReadsFormed

variable {bound : Nat} (h : ReadsFormed bound)
include h

theorem value_succ (text : Bytes) (j : Json) (rest : Bytes)
    (hj : scanValue (bound + 1) text = some (j, rest)) : j.Formed := by
  rw [scanValue] at hj
  split at hj
  · cases hj
  split at hj
  · split at hj
    · cases hj
    split at hj
    · cases hj
      exact formed_object.mpr .nil
    · obtain ⟨⟨members, after⟩, hmembers, hj⟩ := Option.map_eq_some_iff.mp hj
      cases hj
      exact formed_object.mpr (h.members _ _ _ _ .nil hmembers)
  split at hj
  · split at hj
    · cases hj
    split at hj
    · cases hj
      exact formed_array.mpr (List.forall_mem_nil _)
    · obtain ⟨⟨items, after⟩, hitems, hj⟩ := Option.map_eq_some_iff.mp hj
      cases hj
      exact formed_array.mpr (h.items _ _ _ hitems)
  split at hj
  · obtain ⟨⟨s, after⟩, hs, hj⟩ := Option.map_eq_some_iff.mp hj
    cases hj
    exact ⟨by rw [encodable]; exact scanString_valid hs, .string s⟩
  split at hj
  · rw [scanWord_eq hj]
    exact ⟨rfl, .bool true⟩
  split at hj
  · rw [scanWord_eq hj]
    exact ⟨rfl, .bool false⟩
  split at hj
  · rw [scanWord_eq hj]
    exact ⟨rfl, .null⟩
  · obtain ⟨⟨n, after⟩, -, hj⟩ := Option.map_eq_some_iff.mp hj
    cases hj
    exact ⟨rfl, .number n⟩

theorem items_succ (text : Bytes) (items : List Json) (rest : Bytes)
    (hitems : scanItems (bound + 1) text = some (items, rest)) : ∀ j ∈ items, j.Formed := by
  rw [scanItems] at hitems
  split at hitems
  · cases hitems
  · next j after hvalue =>
    have hj := h.value _ _ _ hvalue
    split at hitems
    · cases hitems
    split at hitems
    · obtain ⟨⟨more, after⟩, hmore, hitems⟩ := Option.map_eq_some_iff.mp hitems
      cases hitems
      exact List.forall_mem_cons.mpr ⟨hj, h.items _ _ _ hmore⟩
    split at hitems
    · cases hitems
      exact List.forall_mem_singleton.mpr hj
    · cases hitems

theorem members_succ (before : List (Bytes × Json)) (text : Bytes) (members : List (Bytes × Json))
    (rest : Bytes) (hbefore : FormedMembers before)
    (hmembers : scanMembers (bound + 1) before text = some (members, rest)) :
    FormedMembers members := by
  rw [scanMembers] at hmembers
  split at hmembers
  · cases hmembers
  split at hmembers
  · split at hmembers
    · cases hmembers
    · next name after hname =>
      have hname := scanString_valid hname
      split at hmembers
      · cases hmembers
      split at hmembers
      · split at hmembers
        · cases hmembers
        · next j after hvalue =>
          -- what was read so far goes into the members that the rest is read with
          have hentered := hbefore.insert hname (h.value _ _ _ hvalue)
          split at hmembers
          · cases hmembers
          split at hmembers
          · exact h.members _ _ _ _ hentered hmembers
          split at hmembers
          · cases hmembers
            exact hentered
          · cases hmembers
      · cases hmembers
  · cases hmembers

end ReadsFormed

theorem readsFormed (bound : Nat) : ReadsFormed bound := by
  induction bound with
  | zero => constructor <;> intros <;> simp_all [scanValue, scanItems, scanMembers]
  | succ bound ih => exact ⟨ih.value_succ, ih.items_succ, ih.members_succ⟩

theorem parse?_formed {text : Bytes} {j : Json} (h : parse? text = some j) : j.Formed := by
  rw [parse?] at h
  split at h
  · next value rest hscan =>
    split at h
    · cases h
      exact (readsFormed _).value _ _ _ hscan
    · cases h
  · cases h

/-- **What is read has a text.** -/
theorem parse?_encodable {text : Bytes} {j : Json} (h : parse? text = some j) :
    j.encodable = true := (parse?_formed h).1

/-- **What is read has its members in order.** -/
theorem parse?_inOrder {text : Bytes} {j : Json} (h : parse? text = some j) : j.InOrder := (parse?_formed h).2

theorem dump?_of_encodable {j : Json} (h : j.encodable = true) : j.dump? = some j.render :=
  if_pos h

theorem isSome_dump? {j : Json} : j.dump?.isSome = j.encodable := by
  rw [dump?]
  split <;> simp [*]

theorem dump?_of_isSome {j : Json} (h : j.dump?.isSome = true) : j.dump? = some j.render :=
  dump?_of_encodable (isSome_dump? ▸ h)

end Json

end Telemetry

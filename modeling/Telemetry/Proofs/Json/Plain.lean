import Telemetry.Proofs.Json.RoundTrip

/-!
# Values on one line

The text of a value has no byte below the blank, whatever its strings hold (`plain_render`).  So it
has neither a line end nor a tab, and files whose lines are such texts can be cut into them again.
-/

namespace Telemetry.Json

open Bytes

/-- No byte of the text is a control character. -/
def Plain (text : Bytes) : Prop := ∀ b ∈ text, 0x20 ≤ b

instance (text : Bytes) : Decidable (Plain text) :=
  decidable_of_iff (text.all fun b => 0x20 ≤ b) (by simp [Plain])

namespace Plain

variable {s t : Bytes} {b : UInt8}

theorem append (hs : Plain s) (ht : Plain t) : Plain (s ++ t) := by
  intro b hb
  rcases List.mem_append.mp hb with hb | hb
  · exact hs b hb
  · exact ht b hb

theorem cons (hb : 0x20 ≤ b) (hs : Plain s) : Plain (b :: s) := by
  exact List.forall_mem_cons.mpr ⟨hb, hs⟩

theorem of_digits (h : ∀ b ∈ s, isDigit b = true) : Plain s := by
  intro b hb
  have hdigit := (isDigit_iff.mp (h b hb)).1
  rw [UInt8.le_iff_toNat_le]
  exact le_trans (by decide) hdigit

theorem not_mem (h : Plain s) (hb : b < 0x20) : b ∉ s := by
  intro hmem
  exact absurd (h b hmem) (UInt8.not_le.mpr hb)

end Plain

/-! ## Strings and numbers -/

theorem plain_hexDigit (n : Nat) : 0x20 ≤ hexDigit n := by
  have hall : ∀ d : Fin 16, 0x20 ≤ byte (Nat.digitChar d) := by decide
  exact hall ⟨n % 16, Nat.mod_lt _ (by decide)⟩

theorem plain_escapeMark? {b mark : UInt8} (h : escapeMark? b = some mark) : 0x20 ≤ mark := by
  unfold escapeMark? at h
  split_ifs at h with hself <;> obtain rfl := Option.some.inj h
  · rcases Bool.or_eq_true_iff.mp hself with hb | hb <;> rw [of_decide_eq_true hb] <;> decide
  all_goals decide

/-- A control character is written by others. -/
theorem plain_escape (b : UInt8) : Plain (escape b) := by
  unfold escape
  split
  · next mark hmark =>
    exact .cons (by decide) (.cons (plain_escapeMark? hmark) (List.forall_mem_nil _))
  · split
    · refine Plain.append (by decide) ?_
      exact .cons (plain_hexDigit _) (.cons (plain_hexDigit _) (List.forall_mem_nil _))
    · next hcontrol =>
      exact .cons (UInt8.not_lt.mp hcontrol) (List.forall_mem_nil _)

theorem plain_quote (s : Bytes) : Plain (quote s) := by
  have hchars : Plain (s.flatMap escape) := by
    intro b hb
    obtain ⟨c, -, hb⟩ := List.mem_flatMap.mp hb
    exact plain_escape c b hb
  exact .append (.cons (by decide) hchars) (by decide)

theorem plain_spelling {s : Numeral.Spelling} (h : s.WF) : Plain s.text := by
  have hsign : Plain (if s.negative then [byte '-'] else []) := by
    split <;> decide
  have hfraction : Plain s.fractionText := by
    unfold Numeral.Spelling.fractionText
    split
    · exact List.forall_mem_nil _
    · exact .cons (by decide) (.of_digits h.fraction_digits)
  have hexponent : Plain s.exponentText := by
    unfold Numeral.Spelling.exponentText
    split
    · exact List.forall_mem_nil _
    · next negative digits he =>
      refine .cons (by decide) (.cons ?_ (.of_digits (h.exponent_digits _ he).2))
      split <;> decide
  exact ((hsign.append (.of_digits h.whole_digits)).append hfraction).append hexponent

theorem plain_decimal (n : Nat) : Plain (decimal n) := .of_digits fun _ => isDigit_of_mem_decimal

theorem plain_renderNumber (n : Number) : Plain (renderNumber n) := by
  cases n with
  | unsigned n => exact plain_decimal n.toNat
  | signed i =>
    rw [renderNumber]
    split
    · exact .cons (by decide) (plain_decimal _)
    · exact plain_decimal _
  | float x =>
    rw [renderNumber, Numeral.write?]
    cases hx : Binary64.finite? x with
    | none => exact (by decide : Plain (ascii "null"))
    | some v =>
      obtain ⟨s, hs, -, -, htext, -⟩ :=
        Numeral.writeFinite_spelled (Binary64.finite?_eq_some hx).1
      change Plain (Numeral.writeFinite v)
      rw [← htext]
      exact plain_spelling hs

/-! ## Values -/

mutual

/-- **The text of a value is plain.** -/
theorem plain_render : ∀ j : Json, Plain j.render
  | .null => by
    rw [render]
    decide
  | .bool true | .bool false => by
    rw [render]
    decide
  | .number n => by
    rw [render]
    exact plain_renderNumber n
  | .string s => by
    rw [render]
    exact plain_quote s
  | .array items => by
    rw [render]
    exact .append (.cons (by decide) (plain_renderItems items)) (by decide)
  | .object members => by
    rw [render]
    exact .append (.cons (by decide) (plain_renderMembers members)) (by decide)

theorem plain_renderItems : ∀ items : List Json, Plain (renderItems items)
  | [] => by
    rw [renderItems]
    exact List.forall_mem_nil _
  | [j] => by
    rw [renderItems]
    exact plain_render j
  | j :: more :: rest => by
    rw [renderItems]
    exact (plain_render j).append (.cons (by decide) (plain_renderItems (more :: rest)))

theorem plain_renderMembers : ∀ members : List (Bytes × Json), Plain (renderMembers members)
  | [] => by
    rw [renderMembers]
    exact List.forall_mem_nil _
  | [(name, j)] => by
    rw [renderMembers]
    exact (plain_quote name).append (.cons (by decide) (plain_render j))
  | (name, j) :: more :: rest => by
    rw [renderMembers]
    exact ((plain_quote name).append (.cons (by decide) (plain_render j))).append
      (.cons (by decide) (plain_renderMembers (more :: rest)))

end

end Telemetry.Json

import Telemetry.Proofs.Json.Numbers
import Telemetry.Proofs.Json.Strings

/-!
# Reading what was written

A value whose strings are UTF-8 has a text, and reading that text gives the value back
(`parse?_render`) up to what `readBack` says: a double that is not finite comes back as null, and an
integer that is not negative comes back unsigned.  The induction is over the value together with its
lists of items and members, for any text behind it and any bound above the length.
-/

namespace Telemetry.Json

open Bytes

mutual

/-- A value as it is read back. -/
def readBack : Json → Json
  | .null => .null
  | .bool b => .bool b
  | .number n => readNumber n
  | .string s => .string s
  | .array items => .array (readItems items)
  | .object members => .object (Ordered.ofList (readMembers members))

def readItems : List Json → List Json
  | [] => []
  | j :: rest => readBack j :: readItems rest

def readMembers : List (Bytes × Json) → List (Bytes × Json)
  | [] => []
  | (name, j) :: rest => (name, readBack j) :: readMembers rest

end

/-! ## How values begin -/

/-- A byte starts the text that is no blank, no end of a list and no byte order mark. -/
def Begins (text : Bytes) : Prop :=
  ∃ b rest, text = b :: rest ∧ isBlank b = false ∧ b ≠ byte ']' ∧ b ≠ 0xef

theorem Begins.append {text : Bytes} (h : Begins text) (rest : Bytes) : Begins (text ++ rest) := by
  obtain ⟨b, t, rfl, hb⟩ := h
  exact ⟨b, t ++ rest, rfl, hb⟩

theorem Begins.skipBlanks {text : Bytes} (h : Begins text) : skipBlanks text = text := by
  obtain ⟨b, t, rfl, hb, -⟩ := h
  exact List.dropWhile_cons_of_neg (by simp [hb])

/-- A byte that starts a number. -/
def startsNumber (b : UInt8) : Prop := b = byte '-' ∨ isDigit b = true

/-- What a byte that starts a number is not. -/
theorem startsNumber.ne {b c : UInt8} (h : startsNumber b) (hc : c ≠ byte '-')
    (hd : isDigit c = false) : b ≠ c := by
  rintro rfl
  rcases h with h | h
  · exact hc h
  · rw [h] at hd
    cases hd

theorem startsNumber.begins {b : UInt8} (h : startsNumber b) (rest : Bytes) : Begins (b :: rest) := by
  refine ⟨b, rest, rfl, ?_, h.ne (by decide) (by decide), h.ne (by decide) (by decide)⟩
  have hspace := h.ne (c := byte ' ') (by decide) (by decide)
  have htab := h.ne (c := byte '\t') (by decide) (by decide)
  have hline := h.ne (c := byte '\n') (by decide) (by decide)
  have hreturn := h.ne (c := byte '\r') (by decide) (by decide)
  simp [isBlank, hspace, htab, hline, hreturn]

theorem scanValue_of_startsNumber {b : UInt8} (h : startsNumber b) (bound : Nat) (rest : Bytes) :
    scanValue (bound + 1) (b :: rest) =
      (scanNumber (b :: rest)).map fun (n, after) => (.number n, after) := by
  rw [scanValue, (h.begins rest).skipBlanks]
  dsimp only
  rw [if_neg (h.ne (by decide) (by decide)), if_neg (h.ne (by decide) (by decide)),
    if_neg (h.ne (by decide) (by decide)), if_neg (h.ne (by decide) (by decide)),
    if_neg (h.ne (by decide) (by decide)), if_neg (h.ne (by decide) (by decide))]

/-- A quote starts a string. -/
theorem scanValue_quote (bound : Nat) (text : Bytes) :
    scanValue (bound + 1) (byte '"' :: text) =
      (scanString text).map fun (s, after) => (.string s, after) := by
  have hblank : skipBlanks (byte '"' :: text) = byte '"' :: text := rfl
  rw [scanValue, hblank]
  dsimp only
  rw [if_neg (by decide), if_neg (by decide), if_pos rfl]

/-- A bracket starts a list, which has items unless it is closed at once. -/
theorem scanValue_bracket (bound : Nat) {text : Bytes} (h : Begins text) :
    scanValue (bound + 1) (byte '[' :: text) =
      (scanItems bound text).map fun (items, after) => (.array items, after) := by
  have hblank : skipBlanks (byte '[' :: text) = byte '[' :: text := rfl
  have htext := h.skipBlanks
  obtain ⟨b, t, rfl, -, hclose, -⟩ := h
  rw [scanValue, hblank]
  dsimp only
  rw [if_neg (by decide), if_pos rfl, htext]
  dsimp only
  rw [if_neg hclose]

/-- A brace starts an object, which has members if a quote follows. -/
theorem scanValue_brace (bound : Nat) (text : Bytes) :
    scanValue (bound + 1) (byte '\x7b' :: byte '"' :: text) =
      (scanMembers bound [] (byte '"' :: text)).map fun (ms, after) => (.object ms, after) := by
  have hblank : skipBlanks (byte '\x7b' :: byte '"' :: text) = byte '\x7b' :: byte '"' :: text := rfl
  have hquote : skipBlanks (byte '"' :: text) = byte '"' :: text := rfl
  rw [scanValue, hblank]
  dsimp only
  rw [if_pos rfl, hquote]
  dsimp only
  rw [if_neg (by decide)]

/-! ## Numbers -/

theorem decimal_startsNumber (n : Nat) : ∃ b rest, decimal n = b :: rest ∧ startsNumber b := by
  obtain ⟨b, rest, hb⟩ := List.exists_cons_of_ne_nil (decimal_ne_nil n)
  refine ⟨b, rest, hb, Or.inr (isDigit_of_mem_decimal (n := n) ?_)⟩
  rw [hb]
  exact List.mem_cons_self

theorem writeFinite_startsNumber {v : Binary64.Finite} (h : v.WF) :
    ∃ b rest, Numeral.writeFinite v = b :: rest ∧ startsNumber b := by
  obtain ⟨s, hs, -, -, htext, -⟩ := Numeral.writeFinite_spelled h
  obtain ⟨d, more, hd⟩ := List.exists_cons_of_ne_nil hs.whole_ne_nil
  rw [← htext, Numeral.Spelling.text]
  cases s.negative with
  | true => exact ⟨byte '-', _, rfl, Or.inl rfl⟩
  | false =>
    refine ⟨d, more ++ s.fractionText ++ s.exponentText, ?_, Or.inr (hs.whole_digits d ?_)⟩
    · rw [hd]
      rfl
    · rw [hd]
      exact List.mem_cons_self

/-- A number is written as one, or as null. -/
theorem renderNumber_cases (n : Number) :
    (renderNumber n = ascii "null" ∧ readNumber n = .null) ∨
      ∃ b t n', renderNumber n = b :: t ∧ startsNumber b ∧ readNumber n = .number n' ∧
        ∀ rest, Ends rest → scanNumber (renderNumber n ++ rest) = some (n', rest) := by
  cases n with
  | unsigned n =>
    obtain ⟨b, t, hb, hstart⟩ := decimal_startsNumber n.toNat
    exact Or.inr ⟨b, t, .unsigned n, hb, hstart, rfl, fun rest hr => scanNumber_unsigned n hr⟩
  | signed i =>
    right
    by_cases hi : i < 0
    · refine ⟨byte '-', decimal i.toInt.natAbs, .signed i, if_pos hi, Or.inl rfl, if_pos hi, ?_⟩
      intro rest hr
      rw [renderNumber, if_pos hi]
      exact scanNumber_signed hi hr
    · have hnonneg : 0 ≤ i.toInt := by
        have hlt := mt Int64.lt_iff_toInt_lt.mpr hi
        rw [Int64.toInt_zero] at hlt
        omega
      have habs : i.toInt.natAbs = i.toUInt64.toNat := by
        have hword : i.toUInt64.toNat = i.toInt.toNat :=
          Int64.toNat_toUInt64_of_le (Int64.not_lt.mp hi)
        omega
      obtain ⟨b, t, hb, hstart⟩ := decimal_startsNumber i.toInt.natAbs
      refine ⟨b, t, .unsigned i.toUInt64, ?_, hstart, if_neg hi, fun rest hr => ?_⟩
      · rw [renderNumber, if_neg hi, hb]
      · rw [renderNumber, if_neg hi, habs]
        exact scanNumber_unsigned i.toUInt64 hr
  | float x =>
    have hsome := Binary64.finite?_isSome x
    cases hx : Binary64.finite? x with
    | none =>
      rw [hx] at hsome
      left
      simp [renderNumber, Numeral.write?, readNumber, hx, ← hsome]
    | some v =>
      rw [hx] at hsome
      obtain ⟨b, t, hb, hstart⟩ := writeFinite_startsNumber (Binary64.finite?_eq_some hx).1
      have htext : renderNumber (.float x) = Numeral.writeFinite v := by
        rw [renderNumber, Numeral.write?, hx]
        rfl
      refine Or.inr ⟨b, t, .float x, htext.trans hb, hstart, if_pos hsome.symm, fun rest hr => ?_⟩
      rw [htext]
      exact scanNumber_float hx hr

theorem renderNumber_begins (n : Number) : Begins (renderNumber n) := by
  rcases renderNumber_cases n with ⟨htext, -⟩ | ⟨b, t, n', htext, hb, -⟩
  · rw [htext]
    exact ⟨byte 'n', ascii "ull", rfl, by decide, by decide, by decide⟩
  · rw [htext]
    exact hb.begins t

theorem scanValue_number (n : Number) (bound : Nat) {rest : Bytes} (hr : Ends rest) :
    scanValue (bound + 1) (renderNumber n ++ rest) = some (readNumber n, rest) := by
  rcases renderNumber_cases n with ⟨htext, hread⟩ | ⟨b, t, n', htext, hb, hread, hscan⟩
  · rw [htext, hread]
    rfl
  · have hnumber := hscan rest hr
    rw [htext] at hnumber ⊢
    rw [List.cons_append] at hnumber ⊢
    rw [scanValue_of_startsNumber hb, hnumber, hread]
    rfl

/-! ## Values -/

theorem render_begins (j : Json) : Begins (render j) := by
  cases j with
  | null => exact ⟨byte 'n', ascii "ull", by rw [render]; rfl, by decide, by decide, by decide⟩
  | bool b =>
    cases b with
    | true => exact ⟨byte 't', ascii "rue", by rw [render]; rfl, by decide, by decide, by decide⟩
    | false => exact ⟨byte 'f', ascii "alse", by rw [render]; rfl, by decide, by decide, by decide⟩
  | number n =>
    rw [render]
    exact renderNumber_begins n
  | string s => exact ⟨byte '"', _, by rw [render]; rfl, by decide, by decide, by decide⟩
  | array items => exact ⟨byte '[', _, by rw [render]; rfl, by decide, by decide, by decide⟩
  | object members => exact ⟨byte '\x7b', _, by rw [render]; rfl, by decide, by decide, by decide⟩

theorem renderItems_begins (j : Json) (items : List Json) : Begins (renderItems (j :: items)) := by
  cases items with
  | nil =>
    rw [renderItems]
    exact render_begins j
  | cons more rest =>
    rw [renderItems]
    exact (render_begins j).append _

theorem renderMembers_cons (name : Bytes) (j : Json) (members : List (Bytes × Json)) :
    ∃ tail, renderMembers ((name, j) :: members) =
      byte '"' :: (name.flatMap escape ++ byte '"' :: byte ':' :: (render j ++ tail)) := by
  cases members with
  | nil =>
    refine ⟨[], ?_⟩
    rw [renderMembers, quote, List.append_nil]
    simp
  | cons m rest =>
    refine ⟨byte ',' :: renderMembers (m :: rest), ?_⟩
    rw [renderMembers, quote]
    simp

/-- One member up to the end of its value. -/
theorem scanMembers_entry (bound : Nat) (before : List (Bytes × Json)) {name text after : Bytes}
    {j : Json} (hname : Utf8.valid name = true) (hvalue : scanValue bound text = some (j, after)) :
    scanMembers (bound + 1) before
        (byte '"' :: (name.flatMap escape ++ byte '"' :: byte ':' :: text)) =
      match skipBlanks after with
      | [] => none
      | c :: rest =>
        if c = byte ',' then scanMembers bound (Ordered.insert name j before) rest
        else if c = byte '\x7d' then some (Ordered.insert name j before, rest)
        else none := by
  have hquote : skipBlanks (byte '"' :: (name.flatMap escape ++ byte '"' :: byte ':' :: text)) =
      byte '"' :: (name.flatMap escape ++ byte '"' :: byte ':' :: text) := rfl
  have hcolon : skipBlanks (byte ':' :: text) = byte ':' :: text := rfl
  rw [scanMembers, hquote]
  dsimp only
  rw [if_pos rfl, scanString_quoted hname]
  dsimp only
  rw [hcolon]
  dsimp only
  rw [if_pos rfl]
  generalize scanValue bound text = value at hvalue ⊢
  subst hvalue
  rfl

/-- What the bounded readers do with texts that are shorter than their bound. -/
structure ReadsBack (bound : Nat) : Prop where
  value : ∀ j : Json, j.encodable = true → (render j).length < bound →
    ∀ rest, Ends rest → scanValue bound (render j ++ rest) = some (readBack j, rest)
  items : ∀ (j : Json) (items : List Json), encodableItems (j :: items) = true →
    (renderItems (j :: items)).length + 1 < bound →
    ∀ rest, scanItems bound (renderItems (j :: items) ++ byte ']' :: rest) =
      some (readItems (j :: items), rest)
  members : ∀ (name : Bytes) (j : Json) (members : List (Bytes × Json)),
    encodableMembers ((name, j) :: members) = true →
    (renderMembers ((name, j) :: members)).length + 1 < bound →
    ∀ before rest,
      scanMembers bound before (renderMembers ((name, j) :: members) ++ byte '\x7d' :: rest) =
        some ((readMembers ((name, j) :: members)).foldl
          (fun m e => Ordered.insert e.1 e.2 m) before, rest)

namespace ReadsBack

variable {bound : Nat} (h : ReadsBack bound)
include h

theorem value_succ (j : Json) (hj : j.encodable = true) (hbound : (render j).length < bound + 1)
    (rest : Bytes) (hr : Ends rest) :
    scanValue (bound + 1) (render j ++ rest) = some (readBack j, rest) := by
  cases j with
  | null =>
    rw [render, readBack]
    rfl
  | bool b =>
    cases b <;> rw [render, readBack] <;> rfl
  | number n =>
    rw [render, readBack]
    exact scanValue_number n bound hr
  | string s =>
    rw [encodable] at hj
    rw [render, readBack, quote, List.cons_append, List.cons_append, List.append_assoc,
      scanValue_quote]
    change (scanString (s.flatMap escape ++ byte '"' :: rest)).map _ = _
    rw [scanString_quoted hj]
    rfl
  | array items =>
    rw [encodable] at hj
    rw [render, readBack]
    rw [render] at hbound
    cases items with
    | nil => rfl
    | cons item items =>
      -- the two brackets leave room for the byte that ends the items
      have hlength : (renderItems (item :: items)).length + 1 < bound := by
        simp only [List.length_append, List.length_cons, List.length_nil] at hbound
        omega
      have hitems := h.items item items hj hlength rest
      rw [List.cons_append, List.cons_append, List.append_assoc,
        scanValue_bracket bound ((renderItems_begins item items).append _)]
      change (scanItems bound (renderItems (item :: items) ++ byte ']' :: rest)).map _ = _
      rw [hitems]
      rfl
  | object members =>
    rw [encodable] at hj
    rw [render, readBack]
    rw [render] at hbound
    cases members with
    | nil => rfl
    | cons m members =>
      obtain ⟨name, v⟩ := m
      have hlength : (renderMembers ((name, v) :: members)).length + 1 < bound := by
        simp only [List.length_append, List.length_cons, List.length_nil] at hbound
        omega
      have hmembers := h.members name v members hj hlength [] rest
      obtain ⟨tail, htail⟩ := renderMembers_cons name v members
      have htext : byte '\x7b' :: renderMembers ((name, v) :: members) ++ [byte '\x7d'] ++ rest =
          byte '\x7b' :: byte '"' :: (name.flatMap escape ++
            byte '"' :: byte ':' :: (render v ++ tail) ++ byte '\x7d' :: rest) := by
        rw [htail]
        simp
      rw [htail, List.cons_append] at hmembers
      rw [htext, scanValue_brace, hmembers]
      rfl

theorem items_succ (j : Json) (items : List Json) (hj : encodableItems (j :: items) = true)
    (hbound : (renderItems (j :: items)).length + 1 < bound + 1) (rest : Bytes) :
    scanItems (bound + 1) (renderItems (j :: items) ++ byte ']' :: rest) =
      some (readItems (j :: items), rest) := by
  rw [encodableItems, Bool.and_eq_true] at hj
  cases items with
  | nil =>
    rw [renderItems] at hbound ⊢
    have hvalue := h.value j hj.1 (by omega) (byte ']' :: rest)
      (.cons (Or.inr (Or.inl rfl)) rest)
    have hblank : skipBlanks (byte ']' :: rest) = byte ']' :: rest := rfl
    rw [scanItems, hvalue]
    dsimp only
    rw [hblank]
    dsimp only
    rw [if_neg (by decide), if_pos rfl, readItems, readItems]
  | cons item items =>
    rw [renderItems] at hbound ⊢
    rw [List.length_append, List.length_cons] at hbound
    have hvalue := h.value j hj.1 (by omega)
      (byte ',' :: (renderItems (item :: items) ++ byte ']' :: rest)) (.cons (Or.inl rfl) _)
    have hitems := h.items item items hj.2 (by omega) rest
    have hblank : skipBlanks (byte ',' :: (renderItems (item :: items) ++ byte ']' :: rest)) =
        byte ',' :: (renderItems (item :: items) ++ byte ']' :: rest) := rfl
    rw [List.append_assoc, List.cons_append, scanItems, hvalue]
    dsimp only
    rw [hblank]
    dsimp only
    rw [if_pos rfl, hitems, readItems]
    rfl

theorem members_succ (name : Bytes) (j : Json) (members : List (Bytes × Json))
    (hj : encodableMembers ((name, j) :: members) = true)
    (hbound : (renderMembers ((name, j) :: members)).length + 1 < bound + 1)
    (before : List (Bytes × Json)) (rest : Bytes) :
    scanMembers (bound + 1) before (renderMembers ((name, j) :: members) ++ byte '\x7d' :: rest) =
      some ((readMembers ((name, j) :: members)).foldl (fun m e => Ordered.insert e.1 e.2 m) before,
        rest) := by
  rw [encodableMembers, Bool.and_eq_true, Bool.and_eq_true] at hj
  cases members with
  | nil =>
    rw [renderMembers, List.length_append, List.length_cons] at hbound
    have hvalue := h.value j hj.1.2 (by omega) (byte '\x7d' :: rest)
      (.cons (Or.inr (Or.inr rfl)) rest)
    have htext : renderMembers [(name, j)] ++ byte '\x7d' :: rest =
        byte '"' :: (name.flatMap escape ++
          byte '"' :: byte ':' :: (render j ++ byte '\x7d' :: rest)) := by
      rw [renderMembers, quote]
      simp
    have hend : skipBlanks (byte '\x7d' :: rest) = byte '\x7d' :: rest := rfl
    rw [htext, scanMembers_entry bound before hj.1.1 hvalue, hend]
    dsimp only
    rw [if_neg (by decide), if_pos rfl]
    rfl
  | cons m members =>
    obtain ⟨next, k⟩ := m
    rw [renderMembers, List.length_append, List.length_append, List.length_cons,
      List.length_cons] at hbound
    have hvalue := h.value j hj.1.2 (by omega)
      (byte ',' :: (renderMembers ((next, k) :: members) ++ byte '\x7d' :: rest))
      (.cons (Or.inl rfl) _)
    have hmembers := h.members next k members hj.2 (by omega)
      (Ordered.insert name (readBack j) before) rest
    have htext : renderMembers ((name, j) :: (next, k) :: members) ++ byte '\x7d' :: rest =
        byte '"' :: (name.flatMap escape ++ byte '"' :: byte ':' :: (render j ++
          byte ',' :: (renderMembers ((next, k) :: members) ++ byte '\x7d' :: rest))) := by
      rw [renderMembers, quote]
      simp
    have hcomma : skipBlanks
        (byte ',' :: (renderMembers ((next, k) :: members) ++ byte '\x7d' :: rest)) =
        byte ',' :: (renderMembers ((next, k) :: members) ++ byte '\x7d' :: rest) := rfl
    rw [htext, scanMembers_entry bound before hj.1.1 hvalue, hcomma]
    dsimp only
    rw [if_pos rfl, hmembers]
    rfl

end ReadsBack

theorem readsBack (bound : Nat) : ReadsBack bound := by
  induction bound with
  | zero => constructor <;> intros <;> omega
  | succ bound ih => exact ⟨ih.value_succ, ih.items_succ, ih.members_succ⟩

/-- **What was written is read back.** -/
theorem parse?_render {j : Json} (hj : j.encodable = true) : parse? j.render = some j.readBack := by
  have hmark : dropByteOrderMark j.render = j.render := by
    obtain ⟨b, t, ht, -, -, hmark⟩ := render_begins j
    rw [ht, dropByteOrderMark, afterStart?, if_neg hmark.symm]
    rfl
  have hscan := (readsBack (j.render.length + 1)).value j hj (by omega) [] .nil
  rw [List.append_nil] at hscan
  rw [parse?, hmark, hscan]
  rfl

end Telemetry.Json

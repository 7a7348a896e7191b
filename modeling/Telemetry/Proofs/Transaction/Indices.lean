import Telemetry.Proofs.Transaction.Patterns

/-!
# Variable segments read by index

The readers of variable segments once more, with indices into the segment in the place of its rest, in the
order in which a scanner with cursors compares the bytes.  A read outside of the segment has no result, so
each equation of this module says two things: every index that is read lies inside, and the answer is that
of the reader of the rest behind the index.
-/

namespace Telemetry.TransactionName

open Bytes

namespace Indexed

variable {p : UInt8 → Bool} {s : Bytes} {i n : Nat}

/-! ## Questions -/

/-- The second answer if the first is yes; otherwise the second question is not asked. -/
def both (x y : Option Bool) : Option Bool := x.bind fun b => if b then y else some false

/-- The second answer if the first is no; otherwise the second question is not asked. -/
def either (x y : Option Bool) : Option Bool := x.bind fun b => if b then some true else y

/-- Whether the byte at an index is of a class. -/
def byteIs (p : UInt8 → Bool) (s : Bytes) (i : Nat) : Option Bool := s[i]?.map p

/-- Whether there is a byte of a class at an index. -/
def hasByte (p : UInt8 → Bool) (s : Bytes) (i : Nat) : Option Bool :=
  if i < s.length then byteIs p s i else some false

/-- Whether `n` bytes from an index on are of a class, read until one is not. -/
def bytesAre (p : UInt8 → Bool) (s : Bytes) (i : Nat) : Nat → Option Bool
  | 0 => some true
  | n + 1 => both (byteIs p s i) (bytesAre p s (i + 1) n)

/-- Whether there are `n` digits from an index on. -/
def digits (s : Bytes) (i n : Nat) : Option Bool :=
  if s.length < i + n then some false else bytesAre isDigit s i n

/-- The first index from `i` on where no byte of a class is. -/
def behind (p : UInt8 → Bool) (s : Bytes) (i : Nat) : Option Nat :=
  if i < s.length then
    (byteIs p s i).bind fun inside => if inside then behind p s (i + 1) else some i
  else some i
termination_by s.length - i

/-- Whether a test succeeds at one of `n` indices from `i` on. -/
def atSome (test : Nat → Option Bool) (i : Nat) : Nat → Option Bool
  | 0 => some false
  | n + 1 => either (test i) (atSome test (i + 1) n)

@[simp] theorem both_some (b : Bool) (y : Option Bool) :
    both (some b) y = if b then y else some false := rfl

@[simp] theorem either_some (b : Bool) (y : Option Bool) :
    either (some b) y = if b then some true else y := rfl

theorem byteIs_eq (p : UInt8 → Bool) (s : Bytes) (i : Nat) :
    byteIs p s i = (s.drop i).head?.map p := by
  rw [byteIs, List.head?_drop]

theorem hasByte_eq (p : UInt8 → Bool) (s : Bytes) (i : Nat) :
    hasByte p s i = some ((s.drop i).head?.any p) := by
  rw [hasByte, byteIs_eq]
  split
  · next h =>
    rw [List.drop_eq_getElem_cons h]
    rfl
  · next h =>
    rw [List.drop_eq_nil_of_le (Nat.le_of_not_lt h)]
    rfl

theorem bytesAre_eq (h : i + n ≤ s.length) :
    bytesAre p s i n = some (((s.drop i).take n).all p) := by
  induction n generalizing i with
  | zero => simp [bytesAre]
  | succ n ih =>
    have hi : i < s.length := by omega
    rw [bytesAre, byteIs_eq, ih (by omega), List.drop_eq_getElem_cons hi, List.head?_cons,
      Option.map_some, both_some, List.take_succ_cons, List.all_cons]
    cases p s[i] <;> rfl

theorem behind_eq (p : UInt8 → Bool) (s : Bytes) (i : Nat) :
    behind p s i = some (i + ((s.drop i).takeWhile p).length) := by
  fun_induction behind p s i with
  | case1 i hi ih =>
    rw [byteIs_eq, List.drop_eq_getElem_cons hi, List.head?_cons, Option.map_some, Option.bind_some,
      List.takeWhile_cons]
    by_cases hp : p s[i] = true
    · rw [if_pos hp, if_pos hp, ih, List.length_cons]
      congr 1
      omega
    · rw [if_neg hp, if_neg hp]
      rfl
  | case2 i hi =>
    rw [List.drop_eq_nil_of_le (Nat.le_of_not_lt hi)]
    rfl

/-- Behind the bytes of a class stands the rest without them. -/
theorem drop_behind (p : UInt8 → Bool) (s : Bytes) (i : Nat) :
    s.drop (i + ((s.drop i).takeWhile p).length) = (s.drop i).dropWhile p := by
  have hsplit : (s.drop i).takeWhile p ++ (s.drop i).dropWhile p = s.drop i :=
    List.takeWhile_append_dropWhile
  rw [← List.drop_drop]
  nth_rewrite 2 [← hsplit]
  rw [List.drop_left]

theorem drop_succ {b : UInt8} {rest : Bytes} (h : s.drop i = b :: rest) : s.drop (i + 1) = rest := by
  rw [← List.drop_drop, h, List.drop_one, List.tail_cons]

/-! ## Shapes -/

theorem any_afterShape?_append (shape more t : Bytes) (k : Bytes → Bool) :
    (afterShape? (shape ++ more) t).any k =
      (afterShape? shape t).any fun rest => (afterShape? more rest).any k := by
  induction shape generalizing t with
  | nil => rfl
  | cons c shape ih =>
    cases t with
    | nil => rfl
    | cons b t =>
      rw [List.cons_append, afterShape?_cons, afterShape?_cons]
      split
      · exact ih t
      · rfl

/-- What follows a shape is what stands behind as many bytes. -/
theorem drop_of_afterShape? {shape t rest : Bytes} (h : afterShape? shape t = some rest) :
    shape.length ≤ t.length ∧ rest = t.drop shape.length := by
  induction shape generalizing t with
  | nil =>
    obtain rfl := Option.some.inj h
    simp
  | cons c shape ih =>
    cases t with
    | nil => cases h
    | cons b t =>
      rw [afterShape?_cons] at h
      split at h
      · simpa using ih h
      · cases h

theorem any_afterShape?_of_short {shape t : Bytes} (h : t.length < shape.length) (k : Bytes → Bool) :
    (afterShape? shape t).any k = false := by
  cases hrest : afterShape? shape t with
  | none => rfl
  | some rest => exact absurd (drop_of_afterShape? hrest).1 (Nat.not_le_of_lt h)

theorem afterShape?_replicate (c : UInt8) (n : Nat) (t : Bytes) :
    afterShape? (List.replicate n c) t =
      if n ≤ t.length ∧ (t.take n).all (fits c) = true then some (t.drop n) else none := by
  induction n generalizing t with
  | zero => simp [afterShape?]
  | succ n ih =>
    cases t with
    | nil => simp [List.replicate_succ, afterShape?]
    | cons b t =>
      rw [List.replicate_succ, afterShape?_cons, ih]
      by_cases hb : fits c b = true <;> simp [hb]

section Steps

variable {next : Option Bool} {k : Bytes → Bool} {c : UInt8}

/-- A byte of the shape is compared, and then the rest is asked for. -/
theorem byteIs_then (hd : c ≠ byte 'd') (hh : c ≠ byte 'h') (hi : i < s.length)
    (hnext : next = some (k (s.drop (i + 1)))) :
    both (byteIs (c == ·) s i) next = some ((afterShape? [c] (s.drop i)).any k) := by
  rw [byteIs_eq, List.drop_eq_getElem_cons hi, List.head?_cons, Option.map_some, both_some, hnext,
    afterShape?_cons, fits_literal hd hh, afterShape?]
  split <;> rfl

theorem bytesAre_then (h : i + n ≤ s.length) (hc : fits c = p)
    (hnext : next = some (k (s.drop (i + n)))) :
    both (bytesAre p s i n) next = some ((afterShape? (List.replicate n c) (s.drop i)).any k) := by
  have hlength : n ≤ s.length - i := by omega
  rw [bytesAre_eq h, both_some, hnext, afterShape?_replicate, hc, List.drop_drop, List.length_drop]
  by_cases hp : ((s.drop i).take n).all p = true <;> simp [hp, hlength]

theorem digits_then (hn : 0 < n) (hnext : i + n ≤ s.length → next = some (k (s.drop (i + n)))) :
    both (digits s i n) next =
      some ((afterShape? (List.replicate n (byte 'd')) (s.drop i)).any k) := by
  rw [digits]
  split
  · next h =>
    have hshort : (s.drop i).length < (List.replicate n (byte 'd')).length := by
      rw [List.length_drop, List.length_replicate]
      omega
    rw [any_afterShape?_of_short hshort]
    rfl
  · next h => exact bytesAre_then (Nat.le_of_not_lt h) rfl (hnext (Nat.le_of_not_lt h))

end Steps

/-- Whatever is asked of the rest is asked of it only if there is one. -/
theorem both_true (x : Option Bool) : both x (some true) = x := by
  rcases x with _ | (_ | _) <;> rfl

/-! ## Identifiers -/

/-- Groups of hexadecimal digits from an index on, with a dash between two of them. -/
def groups (s : Bytes) (i : Nat) : List Nat → Option Bool
  | [] => some true
  | [n] => bytesAre isHex s i n
  | n :: m :: more =>
    both (bytesAre isHex s i n)
      (both (byteIs (byte '-' == ·) s (i + n)) (groups s (i + n + 1) (m :: more)))

/-- Whether a UUID begins at an index, with no word before and behind it. -/
def uuidAt (s : Bytes) (i : Nat) : Option Bool :=
  both (if 0 < i then byteIs (fun b => !isWord b) s (i - 1) else some true)
    (both (if i + 36 < s.length then byteIs (fun b => !isWord b) s (i + 36) else some true)
      (groups s i [8, 4, 4, 4, 12]))

def hasUuid (s : Bytes) : Option Bool :=
  if s.length < 36 then some false else atSome (uuidAt s) 0 (s.length - 35)

/-- The shape of groups of hexadecimal digits. -/
def groupShape : List Nat → Bytes
  | [] => []
  | [n] => List.replicate n (byte 'h')
  | n :: m :: more => List.replicate n (byte 'h') ++ ([byte '-'] ++ groupShape (m :: more))

theorem groups_eq {ns : List Nat} (h : i + (groupShape ns).length ≤ s.length) :
    groups s i ns = some ((afterShape? (groupShape ns) (s.drop i)).any fun _ => true) := by
  fun_induction groupShape ns generalizing i with
  | case1 => rfl
  | case2 n =>
    rw [List.length_replicate] at h
    rw [groups, ← bytesAre_then h rfl rfl, both_true]
    rfl
  | case3 n m more ih =>
    simp only [List.length_append, List.length_replicate, List.length_singleton] at h
    simp only [any_afterShape?_append]
    refine bytesAre_then (by omega) rfl ?_
    refine byteIs_then (by decide) (by decide) (by omega) ?_
    exact ih (by omega)

theorem startsWithUuid_eq (t : Bytes) : startsWithUuid t =
    (afterShape? uuidShape t).any fun rest => rest.head?.all fun b => !isWord b := by
  rw [startsWithUuid]
  rcases afterShape? uuidShape t with _ | (_ | ⟨b, rest⟩) <;> rfl

/-- Whether the byte before an index belongs to a word. -/
def wordBefore (s : Bytes) (i : Nat) : Bool := 0 < i && s[i - 1]?.any isWord

theorem uuidAt_eq (h : i + 36 ≤ s.length) :
    uuidAt s i = some (!wordBefore s i && startsWithUuid (s.drop i)) := by
  have hbefore : (if 0 < i then byteIs (fun b => !isWord b) s (i - 1) else some true) =
      some (!wordBefore s i) := by
    rw [wordBefore]
    split
    · next hi => simp [byteIs, hi, List.getElem?_eq_getElem (show i - 1 < s.length by omega)]
    · next hi => simp [hi]
  have hbehind : (if i + 36 < s.length then byteIs (fun b => !isWord b) s (i + 36) else some true) =
      some ((s.drop (i + 36)).head?.all fun b => !isWord b) := by
    split
    · next hi =>
      rw [byteIs_eq, List.drop_eq_getElem_cons hi]
      rfl
    · next hi =>
      rw [List.drop_eq_nil_of_le (Nat.le_of_not_lt hi)]
      rfl
  have hshape : groupShape [8, 4, 4, 4, 12] = uuidShape := by decide
  have hlength : uuidShape.length = 36 := by decide
  have hgroups : groups s i [8, 4, 4, 4, 12] =
      some ((afterShape? (groupShape [8, 4, 4, 4, 12]) (s.drop i)).any fun _ => true) :=
    groups_eq (by rwa [hshape, hlength])
  rw [uuidAt, hbefore, hbehind, hgroups, hshape, startsWithUuid_eq]
  cases hrest : afterShape? uuidShape (s.drop i) with
  | none => simp
  | some rest =>
    obtain ⟨-, rfl⟩ := drop_of_afterShape? hrest
    rw [hlength, List.drop_drop, Option.any_some, Option.any_some, both_true, both_some]
    cases wordBefore s i <;> rfl

theorem hasUuid_of_short {t : Bytes} (h : t.length < 36) (w : Bool) :
    TransactionName.hasUuid w t = false := by
  induction t generalizing w with
  | nil => rfl
  | cons b t ih =>
    have hstart : startsWithUuid (b :: t) = false := by
      rw [startsWithUuid_eq]
      exact any_afterShape?_of_short h _
    rw [TransactionName.hasUuid, hstart, ih (Nat.lt_of_succ_lt h)]
    simp

theorem atSome_uuidAt_eq (h : i + n = s.length - 35) (hs : 36 ≤ s.length) :
    atSome (uuidAt s) i n = some (TransactionName.hasUuid (wordBefore s i) (s.drop i)) := by
  induction n generalizing i with
  | zero =>
    have hshort : (s.drop i).length < 36 := by
      rw [List.length_drop]
      omega
    rw [hasUuid_of_short hshort]
    rfl
  | succ n ih =>
    have hi : i < s.length := by omega
    have hword : wordBefore s (i + 1) = isWord s[i] := by
      simp [wordBefore, hi]
    rw [atSome, uuidAt_eq (by omega), ih (by omega), hword, List.drop_eq_getElem_cons hi,
      TransactionName.hasUuid, either_some]
    cases !wordBefore s i && startsWithUuid (s[i] :: s.drop (i + 1)) <;> rfl

theorem hasUuid_eq (s : Bytes) : hasUuid s = some (TransactionName.hasUuid false s) := by
  rw [hasUuid]
  split
  · next h => rw [hasUuid_of_short h]
  · next h => exact atSome_uuidAt_eq (by omega) (Nat.le_of_not_lt h)

/-! ## Dates -/

/-- Asks the rest behind the fraction of a second, if there is one; a point needs a digit. -/
def fractionAt (s : Bytes) (i : Nat) (next : Nat → Option Bool) : Option Bool :=
  (hasByte (byte '.' == ·) s i).bind fun point =>
    if point then
      (behind isDigit s (i + 1)).bind fun stop => if stop = i + 1 then some false else next stop
    else next i

/-- Asks the rest behind the seconds, if there are any. -/
def secondsAt (s : Bytes) (i : Nat) (next : Nat → Option Bool) : Option Bool :=
  (hasByte (byte ':' == ·) s i).bind fun colon =>
    if colon then both (digits s (i + 1) 2) (fractionAt s (i + 3) next) else next i

def zoneAt (s : Bytes) (i : Nat) : Option Bool :=
  either (hasByte (byte 'Z' == ·) s i)
    (both (hasByte (fun b => b == byte '+' || b == byte '-') s i)
      (both (digits s (i + 1) 2) (both (hasByte (byte ':' == ·) s (i + 3)) (digits s (i + 4) 2))))

/-- Whether a date and a time of day with its zone begin at an index. -/
def timeAt (s : Bytes) (i : Nat) : Option Bool :=
  both (digits s i 4) <| both (some (i + 16 ≤ s.length)) <|
  both (byteIs (byte '-' == ·) s (i + 4)) <| both (digits s (i + 5) 2) <|
  both (byteIs (byte '-' == ·) s (i + 7)) <| both (digits s (i + 8) 2) <|
  both (byteIs (byte 'T' == ·) s (i + 10)) <| both (digits s (i + 11) 2) <|
  both (byteIs (byte ':' == ·) s (i + 13)) <| both (digits s (i + 14) 2) <|
  secondsAt s (i + 16) (zoneAt s)

def hasTime (s : Bytes) : Option Bool := atSome (timeAt s) 0 s.length

theorem zoneAt_eq (s : Bytes) (i : Nat) : zoneAt s i = some (startsWithZone (s.drop i)) := by
  have hshape : ascii "dd:dd" = List.replicate 2 (byte 'd') ++
      ([byte ':'] ++ List.replicate 2 (byte 'd')) := by
    decide
  have hours : both (digits s (i + 1) 2) (both (hasByte (byte ':' == ·) s (i + 3)) (digits s (i + 4) 2)) =
      some ((afterShape? (ascii "dd:dd") (s.drop (i + 1))).any fun _ => true) := by
    rw [hshape]
    simp only [any_afterShape?_append]
    refine digits_then Nat.two_pos fun h => ?_
    rw [hasByte]
    split
    · next hi =>
      refine byteIs_then (by decide) (by decide) hi ?_
      rw [← digits_then Nat.two_pos fun _ => rfl, both_true]
    · next hi =>
      rw [List.drop_eq_nil_of_le (Nat.le_of_not_lt hi)]
      rfl
  rw [zoneAt, hasByte_eq, hasByte_eq, hours]
  cases h : s.drop i with
  | nil => rfl
  | cons b rest =>
    rw [drop_succ h, startsWithZone, List.head?_cons, Option.any_some, Option.any_some, either_some,
      both_some]
    have hzone : (afterShape? (ascii "dd:dd") rest).any (fun _ => true) =
        (afterShape? (ascii "dd:dd") rest).isSome := by
      cases afterShape? (ascii "dd:dd") rest <;> rfl
    rw [hzone, BEq.comm]
    cases b == byte 'Z' <;> cases b == byte '+' || b == byte '-' <;> rfl

section Optional

variable {next : Nat → Option Bool} {k : Bytes → Bool}

theorem fractionAt_eq (hnext : ∀ j, next j = some (k (s.drop j))) (i : Nat) :
    fractionAt s i next = some ((afterFraction? (s.drop i)).any k) := by
  rw [fractionAt, hasByte_eq, Option.bind_some, behind_eq, Option.bind_some, hnext, hnext, drop_behind]
  cases h : s.drop i with
  | nil => rfl
  | cons b rest =>
    rw [drop_succ h, afterFraction?, List.head?_cons, Option.any_some]
    by_cases hb : b = byte '.'
    · cases hdigits : rest.takeWhile isDigit <;> simp [hb]
    · simp [hb, Ne.symm hb]

theorem secondsAt_eq (hnext : ∀ j, next j = some (k (s.drop j))) (i : Nat) :
    secondsAt s i next = some ((afterSeconds? (s.drop i)).any k) := by
  have hdigits : both (digits s (i + 1) 2) (fractionAt s (i + 3) next) =
      some ((afterShape? (ascii "dd") (s.drop (i + 1))).any fun rest => (afterFraction? rest).any k) :=
    digits_then Nat.two_pos fun _ => fractionAt_eq hnext (i + 3)
  rw [secondsAt, hasByte_eq, Option.bind_some, hdigits, hnext]
  cases h : s.drop i with
  | nil => rfl
  | cons b rest =>
    rw [drop_succ h, afterSeconds?, List.head?_cons, Option.any_some]
    by_cases hb : b = byte ':'
    · cases hshape : afterShape? (ascii "dd") rest <;> simp [hb]
    · simp [hb, Ne.symm hb]

end Optional

theorem startsWithTime_eq (t : Bytes) : startsWithTime t =
    (afterShape? (ascii "dddd-dd-ddTdd:dd") t).any fun rest => (afterSeconds? rest).any startsWithZone := by
  rw [startsWithTime]
  cases afterShape? (ascii "dddd-dd-ddTdd:dd") t with
  | none => rfl
  | some rest => rw [Option.bind_some, Option.any_some]; cases afterSeconds? rest <;> rfl

theorem timeAt_eq (s : Bytes) (i : Nat) : timeAt s i = some (startsWithTime (s.drop i)) := by
  have hshape : ascii "dddd-dd-ddTdd:dd" = List.replicate 4 (byte 'd') ++ ([byte '-'] ++
      (List.replicate 2 (byte 'd') ++ ([byte '-'] ++ (List.replicate 2 (byte 'd') ++ ([byte 'T'] ++
        (List.replicate 2 (byte 'd') ++ ([byte ':'] ++ List.replicate 2 (byte 'd')))))))) := by decide
  have hlength : (ascii "dddd-dd-ddTdd:dd").length = 16 := by decide
  rw [timeAt, both_some]
  by_cases hlong : i + 16 ≤ s.length
  · rw [if_pos (by simpa using hlong), startsWithTime_eq, hshape]
    simp only [any_afterShape?_append]
    refine digits_then (by omega) fun _ => ?_
    refine byteIs_then (by decide) (by decide) (by omega) ?_
    refine digits_then (by omega) fun _ => ?_
    refine byteIs_then (by decide) (by decide) (by omega) ?_
    refine digits_then (by omega) fun _ => ?_
    refine byteIs_then (by decide) (by decide) (by omega) ?_
    refine digits_then (by omega) fun _ => ?_
    refine byteIs_then (by decide) (by decide) (by omega) ?_
    refine digits_then (by omega) fun _ => ?_
    exact secondsAt_eq (zoneAt_eq s) (i + 16)
  · -- without room for date and time the digits of the year decide nothing
    have hshort : (s.drop i).length < (ascii "dddd-dd-ddTdd:dd").length := by
      rw [List.length_drop, hlength]
      omega
    rw [if_neg (by simpa using hlong), startsWithTime_eq, any_afterShape?_of_short hshort,
      digits_then (k := fun _ => false) (by omega) fun _ => rfl]
    cases afterShape? (List.replicate 4 (byte 'd')) (s.drop i) <;> rfl

theorem atSome_eq {test : Nat → Option Bool} {q : Bytes → Bool} (htest : ∀ j, test j = some (q (s.drop j)))
    (hnil : q [] = false) (h : i + n = s.length) : atSome test i n = some (anywhere q (s.drop i)) := by
  induction n generalizing i with
  | zero =>
    rw [List.drop_eq_nil_of_le (by omega), anywhere, hnil]
    rfl
  | succ n ih =>
    have hi : i < s.length := by omega
    rw [atSome, htest, ih (by omega), List.drop_eq_getElem_cons hi, anywhere, either_some]
    cases q (s[i] :: s.drop (i + 1)) <;> rfl

theorem hasTime_eq (s : Bytes) : hasTime s = some (anywhere startsWithTime s) :=
  atSome_eq (timeAt_eq s) rfl (Nat.zero_add _)

/-! ## Values -/

def hash (w : Bytes) (n : Nat) : Option Bool := both (some (w.length == n)) (bytesAre isHex w 0 w.length)

def literal (w : Bytes) : Option Bool :=
  both (some (2 < w.length)) <| both (byteIs (· == byte '0') w 0) <|
  both (byteIs (lowerByte · == byte 'x') w 1) <| bytesAre isHex w 2 (w.length - 2)

def number (w : Bytes) : Option Bool := both (some (2 ≤ w.length)) (bytesAre isDigit w 0 w.length)

def isValueWord (w : Bytes) : Option Bool :=
  either (hash w 40) (either (hash w 32) (either (literal w) (number w)))

theorem hash_eq (w : Bytes) (n : Nat) : hash w n = some (w.length == n && w.all isHex) := by
  rw [hash, bytesAre_eq (by omega), List.drop_zero, List.take_length, both_some]
  cases w.length == n <;> rfl

theorem number_eq (w : Bytes) : number w = some (2 ≤ w.length && w.all isDigit) := by
  rw [number, bytesAre_eq (by omega), List.drop_zero, List.take_length, both_some]
  cases decide (2 ≤ w.length) <;> rfl

theorem literal_eq (w : Bytes) : literal w = some (match w with
    | zero :: x :: digits =>
      zero == byte '0' && lowerByte x == byte 'x' && !digits.isEmpty && digits.all isHex
    | _ => false) := by
  rcases w with _ | ⟨zero, _ | ⟨x, _ | ⟨b, digits⟩⟩⟩
  · rfl
  · rfl
  · simp [literal]
  · rw [literal, bytesAre_eq (by simp only [List.length_cons]; omega)]
    simp only [both_some, byteIs, List.getElem?_cons_zero, List.getElem?_cons_succ, Option.map_some]
    cases zero == byte '0' <;> cases lowerByte x == byte 'x' <;> simp

theorem isValueWord_eq (w : Bytes) : isValueWord w = some (TransactionName.isValueWord w) := by
  have heither : ∀ a b : Bool, either (some a) (some b) = some (a || b) := by decide
  rw [isValueWord, hash_eq, hash_eq, literal_eq, number_eq, heither, heither, heither, ← Bool.or_assoc,
    ← Bool.or_assoc]
  rfl

/-! ## Words -/

section Words

variable {t : Bytes} {b : UInt8}

theorem words_cons_of_not (hb : isWord b = false) (t : Bytes) : words (b :: t) = words t := by
  rw [words, splitWhere, if_pos (by simp [hb])]
  rfl

theorem words_dropWhile (t : Bytes) : words (t.dropWhile fun b => !isWord b) = words t := by
  induction t with
  | nil => rfl
  | cons b t ih =>
    cases hb : isWord b with
    | true => rw [List.dropWhile_cons_of_neg (by simp [hb])]
    | false => rw [List.dropWhile_cons_of_pos (by simp [hb]), ih, words_cons_of_not hb]

theorem splitWhere_not_isWord (t : Bytes) : splitWhere (fun b => !isWord b) t =
    t.takeWhile isWord :: (match t.dropWhile isWord with
      | [] => []
      | _ :: rest => splitWhere (fun b => !isWord b) rest) := by
  induction t with
  | nil => rfl
  | cons b t ih =>
    rw [splitWhere]
    cases hb : isWord b with
    | true => simp [hb, ih]
    | false => simp [hb]

/-- The first word is a run at the start, if there is one. -/
theorem words_eq (t : Bytes) : words t =
    if (t.takeWhile isWord).isEmpty then words (t.dropWhile isWord)
    else t.takeWhile isWord :: words (t.dropWhile isWord) := by
  have hrest : words (t.dropWhile isWord) = (match t.dropWhile isWord with
      | [] => []
      | _ :: rest => splitWhere (fun b => !isWord b) rest).filter fun w => !w.isEmpty := by
    cases h : t.dropWhile isWord with
    | nil => rfl
    | cons b rest =>
      have hb : isWord b = false := head?_dropWhile t b (by rw [h]; rfl)
      rw [words_cons_of_not hb, words]
  rw [hrest, words, splitWhere_not_isWord]
  cases t.takeWhile isWord <;> rfl

/-- Behind a run of other bytes and a run of word bytes the index has moved on. -/
theorem lt_stop (hi : i < s.length) {start stop : Nat}
    (hstart : behind (fun b => !isWord b) s i = some start)
    (hstop : behind isWord s start = some stop) : i < stop := by
  rw [behind_eq, Option.some_inj] at hstart hstop
  rw [List.drop_eq_getElem_cons hi] at hstart
  cases hword : isWord s[i] with
  | true =>
    rw [List.takeWhile_cons_of_neg (by simp [hword]), List.length_nil, Nat.add_zero] at hstart
    subst hstart
    rw [List.drop_eq_getElem_cons hi, List.takeWhile_cons_of_pos hword, List.length_cons] at hstop
    omega
  | false =>
    rw [List.takeWhile_cons_of_pos (by simp [hword]), List.length_cons] at hstart
    omega

end Words

/-- The runs of letters, digits and underscores from an index on: other bytes are passed over, and a run
lasts until the next of them. -/
def wordsFrom (s : Bytes) (i : Nat) : Option (List Bytes) :=
  if _hi : i < s.length then
    match _hstart : behind (fun b => !isWord b) s i with
    | none => none
    | some start =>
      match _hstop : behind isWord s start with
      | none => none
      | some stop => (wordsFrom s stop).map fun more =>
        if start < stop then (s.drop start).take (stop - start) :: more else more
  else some []
termination_by s.length - i
decreasing_by
  have hlt := lt_stop _hi _hstart _hstop
  omega

theorem wordsFrom_eq (s : Bytes) (i : Nat) : wordsFrom s i = some (words (s.drop i)) := by
  fun_induction wordsFrom s i with
  | case1 i hi hstart => simp [behind_eq] at hstart
  | case2 i hi start hstart hstop => simp [behind_eq] at hstop
  | case3 i hi start hstart stop hstop ih =>
    rw [behind_eq, Option.some_inj] at hstart hstop
    have hrest : s.drop start = (s.drop i).dropWhile fun b => !isWord b := by
      rw [← hstart, drop_behind]
    have hstop' : stop - start = ((s.drop start).takeWhile isWord).length := by omega
    have hslice : (s.drop start).take (stop - start) = (s.drop start).takeWhile isWord := by
      rw [hstop']
      exact (List.prefix_iff_eq_take.mp (List.takeWhile_prefix isWord)).symm
    have hempty : start < stop ↔ (s.drop start).takeWhile isWord ≠ [] := by
      rw [← List.length_pos_iff]
      omega
    rw [ih, hslice, ← hstop, drop_behind, Option.map_some, ← words_dropWhile (s.drop i), ← hrest,
      words_eq (s.drop start), Option.some_inj, hstop]
    by_cases hrun : (s.drop start).takeWhile isWord = []
    · rw [if_neg (by simpa [hempty] using hrun), if_pos (by simpa using hrun)]
    · rw [if_pos (hempty.mpr hrun), if_neg (by simpa using hrun)]
  | case4 i hi =>
    rw [List.drop_eq_nil_of_le (Nat.le_of_not_lt hi)]
    rfl

/-! ## Segments -/

/-- Whether a segment is variable. -/
def isVariable (s : Bytes) : Option Bool :=
  if s.isEmpty then some false
  else either (hasUuid s) <| either (hasTime s) <| (wordsFrom s 0).bind fun words =>
    words.foldr (fun w rest => either (isValueWord w) rest) (some false)

theorem foldr_isValueWord (words : List Bytes) :
    words.foldr (fun w rest => either (isValueWord w) rest) (some false) =
      some (words.any TransactionName.isValueWord) := by
  induction words with
  | nil => rfl
  | cons w words ih =>
    rw [List.foldr_cons, ih, isValueWord_eq, either_some, List.any_cons]
    cases TransactionName.isValueWord w <;> rfl

theorem isVariable_eq (s : Bytes) : isVariable s = some (TransactionName.isVariable s) := by
  rw [isVariable, hasUuid_eq, hasTime_eq, wordsFrom_eq, Option.bind_some, foldr_isValueWord, List.drop_zero]
  cases s with
  | nil => rfl
  | cons b s =>
    rw [TransactionName.isVariable, either_some, either_some]
    cases TransactionName.hasUuid false (b :: s) <;> cases anywhere startsWithTime (b :: s) <;> rfl

end Indexed

/-- **A segment is variable exactly if one of the patterns occurs in it**: a UUID apart from words, a date
and a time of day with its zone anywhere, or a value as a whole word.  The scanner that reads the segment by
index answers alike, so that none of its reads lies outside. -/
theorem isVariable_exact (s : Bytes) :
    (isVariable s = true ↔ Varies s) ∧ Indexed.isVariable s = some (isVariable s) :=
  ⟨isVariable_iff, Indexed.isVariable_eq s⟩

end Telemetry.TransactionName

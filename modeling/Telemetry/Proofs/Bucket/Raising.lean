import Telemetry.Proofs.Json.Raising

/-!
# Batches with accesses that raise

An entry of a batch is read with accesses that are not all asked for before.  What they raise is caught:
an entry that misuses a value is a malformed one, and what is wrong with an entry does not touch the others.
Reading so raises what reading with faults refuses (`Matches`), entry by entry (`entry_eq`) and for the
batch as a whole (`readBatch_eq`).
-/

namespace Telemetry.Raising

variable {α β : Type}

/-! ## What is caught -/

/-- What an entry raises, where a misuse of a value makes the entry malformed. -/
def malformed : Raised → Raised
  | .misuse _ => .entry .malformed
  | e => e

/-- What one reader raises is, once it is caught, what the other refuses; else they read the same. -/
def Matches (x : Except Raised α) (y : Except Wire.Fault α) : Prop :=
  x.mapError malformed = y.mapError .entry

namespace Matches

theorem pure (a : α) : Matches (Pure.pure a) (Pure.pure a) := rfl

theorem bind {x : Except Raised α} {y : Except Wire.Fault α} {f : α → Except Raised β}
    {g : α → Except Wire.Fault β} (h : Matches x y) (hrest : ∀ a, Matches (f a) (g a)) :
    Matches (x >>= f) (y >>= g) := by
  cases x with
  | ok a =>
    cases y with
    | ok b =>
      obtain rfl := Except.ok.inj h
      exact hrest a
    | error fault => cases h
  | error e =>
    cases y with
    | ok b => cases h
    | error fault => exact congrArg Except.error (Except.error.inj h)

theorem mapM {γ : Type} {f : γ → Except Raised α} {g : γ → Except Wire.Fault α}
    (h : ∀ c, Matches (f c) (g c)) (l : List γ) : Matches (l.mapM f) (l.mapM g) := by
  induction l with
  | nil => exact .pure []
  | cons c rest ih =>
    rw [List.mapM_cons, List.mapM_cons]
    exact (h c).bind fun a => ih.bind fun more => .pure (a :: more)

theorem foldlM {γ : Type} {f : α → γ → Except Raised α} {g : α → γ → Except Wire.Fault α}
    (h : ∀ a c, Matches (f a c) (g a c)) (l : List γ) (a : α) :
    Matches (l.foldlM f a) (l.foldlM g a) := by
  induction l generalizing a with
  | nil => exact .pure a
  | cons c rest ih =>
    rw [List.foldlM_cons, List.foldlM_cons]
    exact (h a c).bind ih

/-- An access misuses a value where the access with a cause does. -/
theorem demand (view : Json → Option α) (j : Json) :
    Matches (Raising.demand view j) (Wire.access (j.expect view)) := by
  rw [Raising.demand]
  cases j.expect view <;> rfl

theorem member (j : Json) (name : String) :
    Matches (Raising.member j name) (Wire.access (j.getMember (ascii name))) := by
  cases h : j.get? (ascii name) with
  | some v =>
    rw [member_of_get? h, Json.getMember, h]
    rfl
  | none =>
    -- of a value that is no object the member is raised as another misuse, which is caught alike
    have hmissing : Wire.access (j.getMember (ascii name)) = .error .malformed := by
      rw [Json.getMember, h]
      rfl
    rw [hmissing]
    cases j with
    | object members =>
      rw [Raising.member, Json.getMember, h]
      rfl
    | _ => rfl

end Matches

/-! ## Values -/

/-- Raises a fault unless a condition holds. -/
def require (condition : Bool) (fault : Wire.Fault) : Except Raised Unit :=
  if condition then return () else throw (.entry fault)

/-- The value of a view that has to apply to a member that has to be there. -/
def demandAt (view : Json → Option α) (j : Json) (name : String) : Except Raised α := do
  demand view (← member j name)

def wordAt (j : Json) (name : String) : Except Raised UInt64 := do
  return (← demandAt Json.number? j name).toWord

/-- A number without sign and fraction. -/
def unsigned? : Json → Option UInt64
  | .number (.unsigned n) => some n
  | _ => none

def distributionEntry (v : Json) : Except Raised Float := do
  require (is Json.number? v) .distributionEntry
  demand Json.float? v

def setMember (v : Json) : Except Raised UInt32 := do
  require (is unsigned? v) .setMember
  let n := (← demand Json.number? v).toWord
  require (n.toNat < UInt32.size) .setMemberRange
  return n.toUInt32

/-- The value of a kind. -/
def bucketValue (kind : Kind) (v : Json) : Except Raised (Value Float) :=
  match kind with
  | .counter => do
    require (is Json.number? v) .counterNotNumber
    return .counter (← demand Json.float? v)
  | .distribution => do
    require (is Json.array? v) .distributionNotList
    return .distribution (← (← demand Json.array? v).mapM distributionEntry)
  | .set => do
    require (is Json.array? v) .setNotList
    return .set (Members.ofList (← (← demand Json.array? v).mapM setMember))
  | .gauge => do
    require (is Json.object? v) .gaugeNotObject
    let last ← demandAt Json.float? v "last"
    let min ← demandAt Json.float? v "min"
    let max ← demandAt Json.float? v "max"
    let sum ← demandAt Json.float? v "sum"
    let count ← wordAt v "count"
    return .gauge ⟨last, min, max, sum, count⟩

section Values

variable (v : Json) (name : String)

theorem access_bind (x : Except Json.Misuse α) (f : α → Except Json.Misuse β) :
    Wire.access (x >>= f) = Wire.access x >>= fun a => Wire.access (f a) := by
  cases x <;> rfl

theorem demandAt_matches (view : Json → Option α) : Matches (demandAt view v name)
    (Wire.access do (← v.getMember (ascii name)).expect view) := by
  rw [demandAt, access_bind]
  exact (Matches.member v name).bind (.demand view)

theorem wordAt_matches : Matches (wordAt v name) (Wire.readWord v name) := by
  have hword : Wire.readWord v name =
      (Wire.access do (← v.getMember (ascii name)).expect Json.number?) >>= fun n => pure n.toWord := by
    simp only [Wire.readWord, access_bind, bind_assoc]
    rfl
  rw [wordAt, hword]
  exact (demandAt_matches v name Json.number?).bind fun n => .pure n.toWord

theorem distributionEntry_matches :
    Matches (distributionEntry v) (Wire.expect v.float? .distributionEntry) := by
  cases v <;> rfl

theorem setMember_matches : Matches (setMember v) (Wire.readMember v) := by
  cases v with
  | number n =>
    cases n with
    | unsigned n =>
      have hset : setMember (.number (.unsigned n)) =
          if n.toNat < UInt32.size then .ok n.toUInt32 else .error (.entry .setMemberRange) := by
        have hdemand : demand Json.number? (.number (.unsigned n)) = .ok (.unsigned n) := rfl
        have hkind : require (is unsigned? (.number (.unsigned n))) .setMember = .ok () := rfl
        rw [setMember, hkind, ok_bind, hdemand, ok_bind]
        by_cases h : n.toNat < UInt32.size
        · have hroom : require (decide (n.toNat < UInt32.size)) .setMemberRange = .ok () :=
            if_pos (decide_eq_true h)
          rw [if_pos h]
          exact bind_eq_ok.mpr ⟨(), hroom, rfl⟩
        · have hroom : require (decide (n.toNat < UInt32.size)) .setMemberRange =
              .error (.entry .setMemberRange) := if_neg (by simpa using h)
          rw [if_neg h]
          dsimp only [Number.toWord]
          rw [hroom]
          rfl
      rw [hset, Wire.readMember]
      split <;> rfl
    | _ => rfl
  | _ => rfl

theorem bucketValue_matches (kind : Kind) : Matches (bucketValue kind v) (Wire.readValue kind v) := by
  cases kind with
  | counter => cases v <;> rfl
  | distribution =>
    cases v with
    | array items =>
      refine (Matches.mapM distributionEntry_matches items).bind fun xs => ?_
      exact .pure (Value.distribution xs)
    | _ => rfl
  | set =>
    cases v with
    | array items =>
      refine (Matches.mapM setMember_matches items).bind fun members => ?_
      exact .pure (Value.set (Members.ofList members))
    | _ => rfl
  | gauge =>
    cases v with
    | object members =>
      refine Matches.bind (demandAt_matches _ "last" Json.float?) fun last => ?_
      refine (demandAt_matches _ "min" Json.float?).bind fun min => ?_
      refine (demandAt_matches _ "max" Json.float?).bind fun max => ?_
      refine (demandAt_matches _ "sum" Json.float?).bind fun sum => ?_
      exact (wordAt_matches _ "count").bind fun count => .pure (Value.gauge ⟨last, min, max, sum, count⟩)
    | _ => rfl

end Values

/-! ## Entries -/

def addTag (tags : Tags) (entry : Bytes × Json) : Except Raised Tags := do
  require (Identifier.validTagKey entry.1) (.invalidTagKey entry.1)
  return Ordered.insert entry.1 (← demand Json.string? entry.2) tags

def tagsOf (j : Json) : Except Raised Tags := do
  if has j "tags" then
    return ← (← member j "tags").entries.foldlM addTag []
  return []

/-- Raises unless the kind is the one of the name, if it is given. -/
def requireKind (m : Identifier) (name : Bytes) (j : Json) : Except Raised Unit := do
  if has j "type" then
    let kind ← demandAt Json.string? j "type"
    require (Kind.ofText? kind = some m.kind) (.kindMismatch kind name)

def widthOf (j : Json) : Except Raised UInt64 := do
  if has j "width" then
    return ← wordAt j "width"
  return 0

/-- The bucket of an object; most accesses are made without asking. -/
def bucketOf (scope : Scope) (j : Json) : Except Raised (Bucket Float) := do
  let name ← demandAt Json.string? j "name"
  match Identifier.parse? name with
  | none => throw (.entry (.invalidName name))
  | some m =>
    requireKind m name j
    let timestamp ← wordAt j "timestamp"
    let width ← widthOf j
    let value ← bucketValue m.kind (← member j "value")
    let tags ← tagsOf j
    return ⟨⟨scope, m.text, tags, timestamp⟩, width, value⟩

/-- An entry of a batch, which a misuse makes malformed. -/
def entry (scope : Scope) (j : Json) : Except Raised (Bucket Float) := do
  require (is Json.object? j) .notObject
  (bucketOf scope j).mapError malformed

section Entries

variable (scope : Scope) (j : Json)

theorem addTag_matches (tags : Tags) (e : Bytes × Json) : Matches (addTag tags e) (Wire.addTag tags e) := by
  unfold addTag Wire.addTag
  split
  · next h =>
    rw [h]
    exact (Matches.demand Json.string? e.2).bind fun s => .pure (Ordered.insert e.1 s tags)
  · next h =>
    rw [Bool.not_eq_true] at h
    rw [h]
    rfl

theorem tagsOf_matches : Matches (tagsOf j) (Wire.readTags j) := by
  unfold tagsOf Wire.readTags
  cases h : j.get? (ascii "tags") with
  | none =>
    simp only [has_of_get?_none h]
    exact .pure []
  | some tags =>
    simp only [has_of_get? h, member_of_get? h, if_true, ok_bind]
    exact Matches.foldlM addTag_matches tags.entries []

theorem requireKind_matches (m : Identifier) (name : Bytes) :
    Matches (requireKind m name j) (Wire.checkKind m name j) := by
  unfold requireKind Wire.checkKind
  cases h : j.get? (ascii "type") with
  | none =>
    simp only [has_of_get?_none h]
    exact .pure ()
  | some kind =>
    simp only [has_of_get? h, demandAt, member_of_get? h, if_true, ok_bind]
    refine (Matches.demand Json.string? kind).bind fun kind => ?_
    rw [require]
    by_cases hkind : Kind.ofText? kind = some m.kind
    · simp [hkind, Matches, Except.mapError]
    · simp [hkind, Matches, Except.mapError, throw, throwThe, MonadExceptOf.throw, malformed]

theorem widthOf_matches : Matches (widthOf j)
    (Wire.access (j.getOr (fun v => v.number?.map Number.toWord) (ascii "width") 0)) := by
  unfold widthOf Json.getOr
  cases h : j.get? (ascii "width") with
  | none =>
    simp only [has_of_get?_none h]
    exact .pure 0
  | some v =>
    simp only [has_of_get? h, wordAt, demandAt, member_of_get? h, if_true, ok_bind]
    cases v <;> rfl

/-- **An object is read as a bucket alike.** -/
theorem bucketOf_matches (h : is Json.object? j = true) :
    Matches (bucketOf scope j) (Wire.readBucket scope j) := by
  obtain ⟨members, hmembers⟩ := Option.isSome_iff_exists.mp h
  unfold bucketOf Wire.readBucket
  rw [hmembers]
  refine (demandAt_matches j "name" Json.string?).bind fun name => ?_
  cases Identifier.parse? name with
  | none => rfl
  | some m =>
    refine (requireKind_matches j m name).bind fun _ => ?_
    refine (wordAt_matches j "timestamp").bind fun timestamp => ?_
    refine (widthOf_matches j).bind fun width => ?_
    refine (Matches.member j "value").bind fun v => ?_
    refine (bucketValue_matches v m.kind).bind fun value => ?_
    exact (tagsOf_matches j).bind fun tags => .pure _

/-- **An entry raises what reading refuses.** -/
theorem entry_eq : entry scope j = (Wire.readBucket scope j).mapError .entry := by
  unfold entry
  cases h : is Json.object? j with
  | true =>
    rw [← bucketOf_matches scope j h]
    rfl
  | false =>
    have hnone : j.object? = none := by simpa [is] using h
    rw [Wire.readBucket, hnone]
    rfl

end Entries

/-! ## Batches -/

/-- The buckets of a batch, and the wordings of what is wrong with its other entries. -/
def readBatch (payload : Bytes) (scope : Scope) : Except Raised (List (Bucket Float) × List Bytes) := do
  match (Json.parse? payload).filter (is Json.array?) with
  | none => throw .notBatch
  | some j =>
    let (found, errors) ← (← demand Json.array? j).foldlM (collect (entry scope)) ([], [])
    return (found, errors.map Prod.snd)

section Batches

variable (payload : Bytes) (scope : Scope)

theorem found_entries (items : List Json) : (items.filterMap fun j => (entry scope j).toOption) =
    Wire.buckets (items.map (Wire.readBucket scope)) := by
  simp only [entry_eq, toOption_mapError]
  rw [Wire.buckets, List.filterMap_map]
  rfl

theorem errors_entries (items : List Json) :
    (items.filterMap (errorAt? (entry scope))).map Prod.snd =
      (Wire.faults (items.map (Wire.readBucket scope))).map Wire.Fault.message := by
  rw [Wire.faults, List.filterMap_map, List.map_filterMap, List.map_filterMap]
  congr 1
  funext j
  dsimp only [Function.comp_apply]
  rw [errorAt?, entry_eq]
  cases Wire.readBucket scope j <;> rfl

/-- **A batch raises only if it is none.** -/
theorem readBatch_eq : readBatch payload scope =
    match Wire.readAll? payload scope with
    | none => .error .notBatch
    | some results => .ok (Wire.buckets results, (Wire.faults results).map Wire.Fault.message) := by
  unfold readBatch Wire.readAll?
  cases Json.parse? payload with
  | none => rfl
  | some j =>
    cases j with
    | array items =>
      have hfilter : (some (Json.array items)).filter (is Json.array?) = some (.array items) := rfl
      rw [hfilter]
      dsimp only
      rw [demand_array, ok_bind, foldlM_collect, ok_bind]
      exact congrArg Except.ok (Prod.ext (found_entries scope items) (errors_entries scope items))
    | _ => rfl

end Batches

end Telemetry.Raising

import Telemetry.Proofs.Bucket.Wire
import Telemetry.Proofs.Bytes.Cutting
import Telemetry.Proofs.Flush.Custody
import Telemetry.Proofs.Json.Plain

/-!
# Files that can be read back

A file only grows, by one line for each batch that has a text or for each message of a batch, and no
line holds a line end.  So the file is cut into its lines again, and each of them is read as what was
written (`takeAll_read_back`), whatever bytes the tags have.
-/

namespace Telemetry

open Bytes Json

/-! ## Lines -/

/-- Lines with their ends. -/
def terminated (lines : List Bytes) : Bytes := lines.flatMap fun line => line ++ [byte '\n']

theorem terminated_append (lines more : List Bytes) :
    terminated (lines ++ more) = terminated lines ++ terminated more := List.flatMap_append

/-- Cut at its line ends, the text is one line for each of some things, in their order, and nothing
behind the last line end. -/
def TellsAll {α : Type} (toldBy : α → Bytes → Prop) (things : List α) (text : Bytes) : Prop :=
  ∃ lines, split (byte '\n') text = lines ++ [[]] ∧ List.Forall₂ toldBy things lines

theorem tellsAll_terminated {α : Type} {toldBy : α → Bytes → Prop} {things : List α} {line : α → Bytes}
    (htold : ∀ a ∈ things, toldBy a (line a)) (hline : ∀ a, byte '\n' ∉ line a) :
    TellsAll toldBy things (terminated (things.map line)) := by
  refine ⟨things.map line, split_terminated ?_, ?_⟩
  · intro l hl
    obtain ⟨a, -, rfl⟩ := List.mem_map.mp hl
    exact hline a
  · rw [List.forall₂_map_right_iff, List.forall₂_same]
    exact htold

namespace TextFile

/-- The file with some lines more. -/
def withLines (f : TextFile) (lines : List Bytes) : TextFile :=
  { f with text := f.text ++ terminated lines }

@[simp] theorem withLines_nil (f : TextFile) : f.withLines [] = f := by
  simp [withLines, terminated]

theorem withLines_withLines (f : TextFile) (lines more : List Bytes) :
    (f.withLines lines).withLines more = f.withLines (lines ++ more) := by
  simp [withLines, terminated_append]

theorem addLine_of_not_full {f : TextFile} (h : f.full = false) (line : Bytes) :
    f.addLine line = (.sent, f.withLines [line]) := by
  simp [addLine, h, withLines, terminated]

end TextFile

/-! ## What a line says -/

namespace Bucket

variable {b : Bucket Float}

/-- The value is read as the bucket, if its key is canonical and its numbers are finite. -/
def ReadFrom (b : Bucket Float) (j : Json) : Prop :=
  b.Canonical → b.value.Finite → ∀ scope, Wire.readBucket scope j = .ok (b.receivedFor scope)

theorem readFrom_bucketJson (withScope : Bool) (b : Bucket Float) :
    b.ReadFrom (Wire.bucketJson withScope b).readBack := by
  intro hcanonical hfinite scope
  exact (Wire.readBucket_bucketJson hcanonical).mpr ⟨hfinite, rfl⟩

/-- The bucket has a text. -/
def writable (b : Bucket Float) : Bool := (Wire.bucketJson true b).dump?.isSome

/-- The line is a message: the organization before the first tab, and behind it the bucket with its
scope. -/
def ToldBy (org : UInt64) (b : Bucket Float) (line : Bytes) : Prop :=
  ∃ text j, cut? (byte '\t') line = some (decimal org.toNat, text) ∧ Json.parse? text = some j ∧
    j.get? (ascii "org_id") = some (.number (.unsigned b.key.scope.org)) ∧
    j.get? (ascii "project_id") = some (.number (.unsigned b.key.scope.project)) ∧ b.ReadFrom j

end Bucket

namespace Batch

variable {b : Batch}

/-- The batch has a text. -/
def writable (b : Batch) : Bool := b.json.dump?.isSome

/-- The header of the partition, if there is one. -/
def headers (b : Batch) : List (Bytes × Json) :=
  (b.partitionText?.map fun s => (partitionHeader, Json.string s)).toList

/-- The line is the batch: its project, its partition if it has one, and its buckets. -/
def ToldBy (b : Batch) (line : Bytes) : Prop :=
  ∃ j items, Json.parse? line = some j ∧
    j.get? (ascii "project_id") = some (.number (.unsigned b.scope.project)) ∧
    j.get? (ascii "headers") = some (.object b.headers) ∧
    j.get? (ascii "buckets") = some (.array items) ∧ List.Forall₂ Bucket.ReadFrom b.buckets items

end Batch

namespace Batch

variable {b : Batch}

theorem sorted_headers (b : Batch) : Ordered.Sorted b.headers := by
  unfold headers
  cases b.partitionText? with
  | none => exact Ordered.sorted_nil
  | some s => exact List.pairwise_singleton _ _

theorem readBack_headers (b : Batch) : (Json.object b.headers).readBack = .object b.headers := by
  rw [readBack_object b.sorted_headers]
  unfold headers
  cases b.partitionText? <;> rfl

theorem sorted_json (b : Batch) :
    Ordered.Sorted [(ascii "buckets", Json.array (b.buckets.map (Wire.bucketJson false))),
      (ascii "headers", .object b.headers),
      (ascii "project_id", .number (.unsigned b.scope.project))] := by
  rw [Ordered.sorted_iff_keys]
  change (["buckets", "headers", "project_id"].map ascii).Pairwise (· < ·)
  decide

/-- **A batch is what its line says.** -/
theorem toldBy_render (h : b.writable = true) : b.ToldBy b.json.render := by
  have hencodable : b.json.encodable = true := by
    rwa [writable, isSome_dump?] at h
  have hget : ∀ {name j}, (name, j) ∈ [(ascii "buckets",
      Json.array (b.buckets.map (Wire.bucketJson false))), (ascii "headers", .object b.headers),
      (ascii "project_id", .number (.unsigned b.scope.project))] →
      b.json.readBack.get? name = some j.readBack := get?_readBack b.sorted_json
  refine ⟨b.json.readBack, (b.buckets.map (Wire.bucketJson false)).map readBack,
    parse?_render hencodable, ?_, ?_, ?_, ?_⟩
  · exact hget (j := .number (.unsigned b.scope.project)) (by simp)
  · rw [hget (j := .object b.headers) (by simp), readBack_headers]
  · rw [hget (j := .array (b.buckets.map (Wire.bucketJson false))) (by simp), readBack_array]
  · rw [List.map_map, List.forall₂_map_right_iff, List.forall₂_same]
    intro x _
    exact x.readFrom_bucketJson false

end Batch

/-- A message of a bucket. -/
def Bucket.message (org : UInt64) (b : Bucket Float) : Bytes :=
  decimal org.toNat ++ byte '\t' :: (Wire.bucketJson true b).render

/-- **A bucket is what its message says.** -/
theorem Bucket.toldBy_message {b : Bucket Float} (h : b.writable = true) (org : UInt64) :
    b.ToldBy org (b.message org) := by
  have hencodable : (Wire.bucketJson true b).encodable = true := by
    rwa [writable, isSome_dump?] at h
  refine ⟨_, (Wire.bucketJson true b).readBack, cut?_eq_some_iff.mpr ⟨rfl, ?_⟩,
    parse?_render hencodable, ?_, ?_, b.readFrom_bucketJson true⟩
  · exact (plain_decimal _).not_mem (by decide)
  · exact Wire.get?_bucketJson (j := .number (.unsigned b.key.scope.org))
      (by simp [Wire.bucketMembers])
  · exact Wire.get?_bucketJson (j := .number (.unsigned b.key.scope.project))
      (by simp [Wire.bucketMembers])

theorem Bucket.newline_not_mem_message (org : UInt64) (b : Bucket Float) :
    byte '\n' ∉ b.message org := by
  have hkey : byte '\n' ∉ decimal org.toNat := (plain_decimal _).not_mem (by decide)
  have htext : byte '\n' ∉ (Wire.bucketJson true b).render := (plain_render _).not_mem (by decide)
  have htab : byte '\n' ≠ byte '\t' := by decide
  simp [message, hkey, htext, htab]

/-! ## The file for the next relay -/

/-- **A batch with a text adds its line**, and one without adds nothing. -/
theorem TextFile.addBatch_eq {f : TextFile} (h : f.full = false) (b : Batch) :
    f.addBatch b = if b.writable then (.sent, f.withLines [b.json.render]) else (.failed, f) := by
  rw [addBatch]
  split
  · next line hline =>
    have hwritable : b.writable = true := by simp [Batch.writable, hline]
    rw [if_pos hwritable, ← Option.some.inj ((dump?_of_isSome hwritable).symm.trans hline)]
    exact addLine_of_not_full h _
  · next hnone => rw [if_neg (by simp [Batch.writable, hnone])]

theorem Outlet.takeAll_file {f : TextFile} (h : f.full = false) (batches : List Batch) :
    Outlet.sink.takeAll batches (.file f) =
      .file (f.withLines ((batches.filter Batch.writable).map fun b => b.json.render)) := by
  induction batches generalizing f with
  | nil => exact congrArg Outlet.file f.withLines_nil.symm
  | cons b rest ih =>
    have hsend : (Outlet.sink.send b (.file f)).2 = .file (f.addBatch b).2 := rfl
    rw [Sink.takeAll, List.foldl_cons, hsend, TextFile.addBatch_eq h]
    split
    · next hwritable =>
      have hrest := ih (f := f.withLines [b.json.render]) h
      rw [TextFile.withLines_withLines] at hrest
      rw [List.filter_cons_of_pos hwritable]
      exact hrest
    · next hwritable =>
      rw [List.filter_cons_of_neg hwritable]
      exact ih h

/-! ## The files of topics -/

namespace TopicFiles

variable {t t' t'' : TopicFiles} {topic key : Bytes}

/-- Every file of the second state is that of the first with some lines more. -/
structure Grown (t t' : TopicFiles) (added : Bytes → List Bytes) : Prop where
  fileName : ∀ topic, t'.fileName? topic = t.fileName? topic
  file : ∀ name, t'.file name = (t.file name).withLines (added name)

theorem Grown.refl (t : TopicFiles) : Grown t t fun _ => [] :=
  ⟨fun _ => rfl, fun name => (t.file name).withLines_nil.symm⟩

theorem Grown.trans {added more : Bytes → List Bytes} (h : Grown t t' added)
    (h' : Grown t' t'' more) : Grown t t'' fun name => added name ++ more name := by
  refine ⟨fun topic => (h'.fileName topic).trans (h.fileName topic), fun name => ?_⟩
  rw [h'.file, h.file, TextFile.withLines_withLines]

/-- A message is a line of the file of its topic. -/
theorem addMessage_grown (hopen : ∀ name, (t.file name).full = false) (topic key text : Bytes) :
    ∃ t', t.addMessage topic key text =
        (if (t.fileName? topic).isSome then .sent else .failed, t') ∧
      Grown t t' fun name =>
        if t.fileName? topic = some name then [key ++ byte '\t' :: text] else [] := by
  unfold addMessage
  cases hname : t.fileName? topic with
  | none => exact ⟨t, rfl, by simpa using Grown.refl t⟩
  | some name =>
    dsimp only
    rw [TextFile.addLine_of_not_full (hopen name)]
    refine ⟨_, rfl, fun _ => rfl, fun other => ?_⟩
    by_cases h : name = other
    · subst h
      rw [if_pos rfl, file, Ordered.get?_insert_self, Option.getD_some]
    · have hother : Ordered.get? other (Ordered.insert name
          ((t.file name).withLines [key ++ byte '\t' :: text]) t.files) =
          Ordered.get? other t.files := Ordered.get?_insert_of_ne (Ne.symm h) _ _
      rw [if_neg (by simpa using h), TextFile.withLines_nil, file, hother]
      rfl

/-- The buckets before the first one without a text are added. -/
theorem addBuckets_grown (hopen : ∀ name, (t.file name).full = false) (topic : Bytes) (org : UInt64)
    (buckets : List (Bucket Float)) :
    Grown t (t.addBuckets topic (decimal org.toNat) buckets).2 fun name =>
      if t.fileName? topic = some name then
        (buckets.takeWhile Bucket.writable).map (Bucket.message org) else [] := by
  induction buckets generalizing t with
  | nil => simpa [addBuckets] using Grown.refl t
  | cons b rest ih =>
    rw [addBuckets]
    by_cases hwritable : b.writable = true
    · obtain ⟨t', hadd, hgrown⟩ := addMessage_grown hopen topic (decimal org.toNat)
        (Wire.bucketJson true b).render
      rw [dump?_of_isSome hwritable, List.takeWhile_cons_of_pos hwritable]
      dsimp only
      rw [hadd]
      cases hname : t.fileName? topic with
      | none =>
        rw [hname] at hgrown
        simpa using hgrown
      | some name =>
        have hrest := ih (t := t') fun other => by rw [hgrown.file]; exact hopen other
        have hall := hgrown.trans hrest
        rw [hgrown.fileName, hname] at hall
        refine ⟨hall.fileName, fun other => (hall.file other).trans ?_⟩
        split <;> rfl
    · have hnone : (Wire.bucketJson true b).dump? = none := by
        simpa [Bucket.writable] using hwritable
      rw [hnone, List.takeWhile_cons_of_neg hwritable]
      simpa using Grown.refl t

/-- The messages of a batch, each with its organization: those of the buckets before the first one
without a text. -/
def messages (b : Batch) : List (UInt64 × Bucket Float) :=
  (b.buckets.takeWhile Bucket.writable).map fun x => (b.scope.org, x)

/-- The messages of some batches that go to a file. -/
def messagesTo (router : Topic.Router) (t : TopicFiles) (name : Bytes) (batches : List Batch) :
    List (UInt64 × Bucket Float) :=
  (batches.filter fun b => t.fileName? (router.topicFor b.scope.org) = some name).flatMap messages

end TopicFiles

/-- **Each file gets the messages of its topics**, in the order of the batches. -/
theorem Outlet.takeAll_topics (router : Topic.Router) {t : TopicFiles}
    (hopen : ∀ name, (t.file name).full = false) (batches : List Batch) :
    ∃ t', Outlet.sink.takeAll batches (.topics router t) = .topics router t' ∧
      t.Grown t' fun name => (t.messagesTo router name batches).map fun m => m.2.message m.1 := by
  induction batches generalizing t with
  | nil => exact ⟨t, rfl, .refl t⟩
  | cons b rest ih =>
    have hsend : (Outlet.sink.send b (.topics router t)).2 =
      .topics router (t.addBatch router b).2 := rfl
    have hgrown := TopicFiles.addBuckets_grown hopen (router.topicFor b.scope.org) b.scope.org b.buckets
    rw [Sink.takeAll, List.foldl_cons, hsend]
    change TopicFiles.Grown t (t.addBatch router b).2 _ at hgrown
    generalize (t.addBatch router b).2 = next at hgrown
    obtain ⟨t', htake, hrest⟩ := ih (t := next) fun name => by rw [hgrown.file]; exact hopen name
    refine ⟨t', htake, (hgrown.trans hrest).fileName, fun name => ?_⟩
    rw [(hgrown.trans hrest).file]
    simp only [TopicFiles.messagesTo, hgrown.fileName, List.filter_cons, decide_eq_true_eq]
    split
    · rw [List.flatMap_cons, List.map_append, TopicFiles.messages, List.map_map]
      rfl
    · rfl

/-! ## What has a text -/

theorem Bucket.writable_iff {b : Bucket Float} (h : b.Canonical) :
    b.writable = true ↔ b.key.tags.Textual := by
  rw [writable, isSome_dump?]
  exact Wire.encodable_bucketJson h

theorem Batch.writable_iff {b : Batch} (h : ∀ x ∈ b.buckets, x.Canonical) :
    b.writable = true ↔ ∀ x ∈ b.buckets, x.key.tags.Textual := by
  have hbuckets : (Json.array (b.buckets.map (Wire.bucketJson false))).encodable = true ↔
      ∀ x ∈ b.buckets, x.key.tags.Textual := by
    rw [encodable_array, List.forall_mem_map]
    exact forall₂_congr fun x hx => Wire.encodable_bucketJson (h x hx)
  have hheaders : (Json.object b.headers).encodable = true := by
    rw [encodable_object]
    intro m hm
    obtain ⟨text, htext, rfl⟩ := Option.map_eq_some_iff.mp (Option.mem_toList.mp hm)
    obtain ⟨n, -, rfl⟩ := Option.map_eq_some_iff.mp htext
    have hdigits : Utf8.valid (decimal n.toNat) = true := by
      apply Utf8.valid_of_ascii
      intro d hd
      exact Identifier.le_of_isAlnum (by simp [isAlnum, isDigit_of_mem_decimal hd])
    refine ⟨(by decide : Utf8.valid partitionHeader = true), ?_⟩
    rwa [encodable]
  have hnames : Utf8.valid (ascii "buckets") = true ∧ Utf8.valid (ascii "headers") = true ∧
      Utf8.valid (ascii "project_id") = true := by decide
  rw [writable, isSome_dump?, ← hbuckets]
  constructor
  · intro hjson
    have hget : b.json.get? (ascii "buckets") =
        some (.array (b.buckets.map (Wire.bucketJson false))) := rfl
    exact encodable_of_get? hjson hget
  · intro hbuckets
    change (Json.object [(ascii "buckets", Json.array (b.buckets.map (Wire.bucketJson false))),
      (ascii "headers", .object b.headers),
      (ascii "project_id", .number (.unsigned b.scope.project))]).encodable = true
    refine encodable_object.mpr (List.forall_mem_cons.mpr ⟨⟨hnames.1, hbuckets⟩, ?_⟩)
    refine List.forall_mem_cons.mpr ⟨⟨hnames.2.1, hheaders⟩, ?_⟩
    exact List.forall_mem_singleton.mpr ⟨hnames.2.2, rfl⟩

/-! ## Reading back -/

/-- **What outlets write can be read back.**  With canonical keys, what has UTF-8 tags has a text.  A file
gets one line for each batch with a text; a batch without one fails and adds nothing.  The file of a topic
gets one line for each message. -/
theorem Outlet.takeAll_read_back (batches : List Batch) :
    (∀ b ∈ batches, ((∀ x ∈ b.buckets, x.Canonical) →
      (b.writable = true ↔ ∀ x ∈ b.buckets, x.key.tags.Textual)) ∧
      (∀ x ∈ b.buckets, x.Canonical → (x.writable = true ↔ x.key.tags.Textual)) ∧
      (b.writable = false → ∀ f, Outlet.send b (.file f) = (.failed, .file f))) ∧
    (∀ f : TextFile, f.full = false → ∃ added,
      Outlet.sink.takeAll batches (.file f) = .file { f with text := f.text ++ added } ∧
      TellsAll Batch.ToldBy (batches.filter Batch.writable) added) ∧
    ∀ (router : Topic.Router) (t : TopicFiles), (∀ name, (t.file name).full = false) → ∃ t',
      Outlet.sink.takeAll batches (.topics router t) = .topics router t' ∧
      ∀ name, ∃ added, (t'.file name).text = (t.file name).text ++ added ∧
        TellsAll (fun m line => m.2.ToldBy m.1 line) (t.messagesTo router name batches) added := by
  refine ⟨fun b _ => ⟨Batch.writable_iff, fun _ _ => Bucket.writable_iff, fun hb f => ?_⟩,
    fun f hf => ?_, fun router t hopen => ?_⟩
  · have hnone : b.json.dump? = none := by simpa [Batch.writable] using hb
    rw [send, TextFile.addBatch, hnone]
  · refine ⟨_, takeAll_file hf batches, tellsAll_terminated ?_ ?_⟩
    · intro b hb
      exact Batch.toldBy_render (List.mem_filter.mp hb).2
    · intro b
      exact (plain_render _).not_mem (by decide)
  · obtain ⟨t', htake, hgrown⟩ := takeAll_topics router hopen batches
    refine ⟨t', htake, fun name => ⟨_, congrArg TextFile.text (hgrown.file name), ?_⟩⟩
    refine tellsAll_terminated ?_ fun m => m.2.newline_not_mem_message m.1
    intro m hm
    obtain ⟨b, -, hm⟩ := List.mem_flatMap.mp hm
    obtain ⟨x, hx, rfl⟩ := List.mem_map.mp hm
    exact Bucket.toldBy_message (List.mem_takeWhile_imp hx) b.scope.org

/-- A line end, a tab, a quote and a NUL byte in tags, between them a batch whose tag is no UTF-8, to a
file with a line in it and to two topics. -/
theorem Outlet.takeAll_read_back_control_characters :
    let tagged (org project : UInt64) (value : Bytes) : Bucket Float :=
      ⟨⟨⟨org, project⟩, ascii "c:custom/a@none", [(ascii "t", value)], 10⟩, 10, .counter 1⟩
    let batches : List Batch :=
      [⟨⟨1, 42⟩, some 7, [tagged 1 42 (ascii "a\nb\tc"), tagged 1 42 (ascii "\"\x00")]⟩,
        ⟨⟨2, 43⟩, none, [tagged 2 43 (ascii "x"), tagged 2 43 [0xff], tagged 2 43 (ascii "y")]⟩,
        ⟨⟨2, 44⟩, none, []⟩]
    let f : TextFile := { text := ascii "\x7b\x7d\n" }
    let t : TopicFiles := { directory := ascii "out" }
    let router : Topic.Router := ⟨⟨[], 2, [(0, ascii "even"), (1, ascii "odd")]⟩, by decide⟩
    ((∀ b ∈ batches, ∀ x ∈ b.buckets, x.Canonical ∧ x.value.Finite) ∧
      batches.map Batch.writable = [true, false, true] ∧
      (t.messagesTo router (ascii "even.jsonl") batches).map (fun m => (m.1, m.2.key.tags)) =
        [(2, [(ascii "t", ascii "x")])]) ∧
    f.full = false ∧ (∃ added,
      Outlet.sink.takeAll batches (.file f) = .file { f with text := f.text ++ added } ∧
      TellsAll Batch.ToldBy (batches.filter Batch.writable) added) ∧
    (∀ name, (t.file name).full = false) ∧ ∃ t',
      Outlet.sink.takeAll batches (.topics router t) = .topics router t' ∧
      ∀ name, ∃ added, (t'.file name).text = (t.file name).text ++ added ∧
        TellsAll (fun m line => m.2.ToldBy m.1 line) (t.messagesTo router name batches) added := by
  intro tagged batches f t router
  obtain ⟨-, hfile, htopics⟩ := Outlet.takeAll_read_back batches
  have hopen : ∀ name, (t.file name).full = false := fun _ => rfl
  exact ⟨⟨by decide +kernel, by decide +kernel, by decide +kernel⟩, rfl, hfile f rfl, hopen,
    htopics router t hopen⟩

end Telemetry

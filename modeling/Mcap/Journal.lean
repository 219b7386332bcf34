import Mcap.AttachmentTape

/-! # What a writer has written

A writer over a stream that never fails is described by a `Journal`: the entries of the
data section that are complete, and what is in progress.  An entry is a record, or a chunk
with the message indexes behind it.  `Shows w j` says that the bytes on the stream, the
hasher, the open chunk or attachment and the indexes that are kept for the summary are those
of the journal `j`.

Every step of a writer adds to its journal.  `finishChunk` moves the open chunk to the
entries, `startChunk` opens one, and a record goes into it or behind the entries; none of
them changes anything else of the writer (`core`).  `OkOrIo` is how such a step can end: as
it should, or with an error of the encoder.  While an attachment is in progress all of them
are refused, and nothing changes.
-/
namespace Mcap

/-! ## Entries -/

/-- A part of the data section. -/
inductive Entry
  | record (r : Record)
  /-- A chunk whose records are compressed to `out`, and its message indexes. -/
  | chunk (records : List Record) (out : Bytes)

namespace Entry
variable (o : WriteOptions)

/-- The records of the file. -/
def records : Entry → List Record
  | record r => [r]
  | chunk records out => closedChunk o records out :: indexRecords o records

/-- The bytes of the file. -/
def bytes (e : Entry) : Bytes := content (e.records o)

/-- The bytes that go into the hasher of the data section. -/
def hashed : Entry → Bytes
  | record r => r.frame
  | chunk records out =>
      opAndLen op.CHUNK (closedChunk o records out).body.length ++
        (chunkHeader o records out).bytes ++ (if o.calculateChunkCrcs then out else []) ++
          content (indexRecords o records)

/-- The records that were written, those of a chunk one by one. -/
def flat : Entry → List Record
  | record r => [r]
  | chunk records _ => records

theorem bytes_record (r : Record) : (record r).bytes o = r.frame := content_singleton r

theorem bytes_chunk (rs : List Record) (out : Bytes) : (chunk rs out).bytes o =
    (closedChunk o rs out).frame ++ content (indexRecords o rs) := rfl

end Entry

section
variable (o : WriteOptions)

/-- The data section, from the magic on. -/
def dataBytes (es : List Entry) : Bytes := MAGIC ++ es.flatMap (Entry.bytes o)

/-- What the hasher of the data section has absorbed. -/
def dataHashed (es : List Entry) : Bytes := MAGIC ++ es.flatMap (Entry.hashed o)

/-- The hasher of the data section. -/
def dataHasher (es : List Entry) : Option Hasher :=
  if o.calculateDataSectionCrc then some ⟨dataHashed o es⟩ else none

/-- The entries with their positions, if the first is at `pos`. -/
def withOffsets : Nat → List Entry → List (Nat × Entry)
  | _, [] => []
  | pos, e :: es => (pos, e) :: withOffsets (pos + (e.bytes o).length) es

theorem dataBytes_append (es : List Entry) (e : Entry) :
    dataBytes o (es ++ [e]) = dataBytes o es ++ e.bytes o := by
  simp [dataBytes]

theorem dataHashed_append (es : List Entry) (e : Entry) :
    dataHashed o (es ++ [e]) = dataHashed o es ++ e.hashed o := by
  simp [dataHashed]

theorem dataHasher_append (es : List Entry) (e : Entry) :
    dataHasher o (es ++ [e]) = (dataHasher o es).map (·.update (e.hashed o)) := by
  rw [dataHasher, dataHasher, dataHashed_append]
  split <;> rfl

theorem withOffsets_append (pos : Nat) (es : List Entry) (e : Entry) :
    withOffsets o pos (es ++ [e]) =
      withOffsets o pos es ++ [(pos + (es.flatMap (Entry.bytes o)).length, e)] := by
  induction es generalizing pos with
  | nil => rfl
  | cons e' es ih =>
    rw [List.cons_append, withOffsets, ih, withOffsets, List.flatMap_cons, List.length_append,
      ← Nat.add_assoc]
    rfl

/-- The entries of the data section with their positions in the file. -/
def placedEntries (es : List Entry) : List (Nat × Entry) := withOffsets o MAGIC.length es

theorem placedEntries_append (es : List Entry) (e : Entry) :
    placedEntries o (es ++ [e]) = placedEntries o es ++ [((dataBytes o es).length, e)] := by
  rw [placedEntries, withOffsets_append, dataBytes, List.length_append]
  rfl

/-! ## What is kept for the summary -/

/-- The index of a chunk. -/
def chunkIndexOf : Nat × Entry → Option ChunkIndex
  | (pos, .chunk records out) => some (chunkIndex o pos records out)
  | _ => none

/-- The index of an attachment. -/
def attachmentIndexOf : Nat × Entry → Option AttachmentIndex
  | (pos, .record (.attachment header data _)) => some (attachmentIndex o pos header data)
  | _ => none

/-- The index of a metadata record. -/
def metadataIndexOf : Nat × Entry → Option MetadataIndex
  | (pos, .record (.metadata metadata)) =>
      some
        { offset := .ofNat pos
          length := .ofNat (Record.metadata metadata).frame.length
          name := metadata.name }
  | _ => none

/-- The chunk indexes of the entries. -/
def chunkIndexesOf (es : List Entry) : List ChunkIndex :=
  (placedEntries o es).filterMap (chunkIndexOf o)

/-- The attachment indexes of the entries. -/
def attachmentIndexesOf (es : List Entry) : List AttachmentIndex :=
  (placedEntries o es).filterMap (attachmentIndexOf o)

/-- The metadata indexes of the entries. -/
def metadataIndexesOf (es : List Entry) : List MetadataIndex :=
  (placedEntries o es).filterMap metadataIndexOf

/-- Neither an attachment nor metadata: the writer keeps no index of it. -/
def Record.Unindexed : Record → Prop
  | .attachment .. => False
  | .metadata _ => False
  | _ => True

end

/-! ## Encoders -/

section
variable (σ : Type) [Encoders σ] (o : WriteOptions)

/-- The compressor of a chunk has taken the records and emitted `out`. -/
inductive Coder.Ran : List Record → Coder σ → Bytes → Prop
  | start {coder out} :
      Coder.start o.compression o.compressionLevel o.compressionThreads = .ok (coder, out) →
      Ran [] coder out
  | push {records r coder coder' out x} : Ran records coder out →
      coder.push r.frame = .ok (coder', x) → Ran (records ++ [r]) coder' (out ++ x)

/-- The records of a chunk are compressed to `out`. -/
def Packs (records : List Record) (out : Bytes) : Prop :=
  ∃ coder emitted x, Coder.Ran σ o records coder emitted ∧ coder.finish = .ok x ∧ out = emitted ++ x

end

/-! ## Journals -/

/-- What is in progress. -/
inductive Tail
  | raw
  | chunk (records : List Record)
  | attachment (header : AttachmentHeader) (length : UInt64) (data : Bytes)
  /-- An attachment was given up. -/
  | lost

/-- What a writer has written. -/
structure Journal where
  entries : List Entry
  tail : Tail

namespace Journal

/-- The records that were written, in their order. -/
def flat (j : Journal) : List Record :=
  j.entries.flatMap Entry.flat ++
    match j.tail with
    | .chunk records => records
    | _ => []

/-- The writer takes records. -/
def Open (j : Journal) : Prop := j.tail = .raw ∨ ∃ records, j.tail = .chunk records

end Journal

section
/-- The stream holds the entries, and the hasher has absorbed them. -/
structure CountingCrcWriter.Holds (c : CountingCrcWriter Stream) (o : WriteOptions)
    (es : List Entry) : Prop where
  onTape : c.OnTape (dataBytes o es)
  hasher : c.hasher = dataHasher o es

variable {σ : Type} [Encoders σ]

/-- **The write mode of a writer** shows the journal. -/
inductive Journal.Mode (o : WriteOptions) :
    Journal → Option (WriteMode σ Stream) → Option (WriteMode σ Stream) → Prop
  | raw {es c dropped} : c.Holds o es → Mode o ⟨es, .raw⟩ (some (.raw c)) dropped
  | chunk {es records coder out buffered dropped} : Coder.Ran σ o records coder out →
      Mode o ⟨es, .chunk records⟩ (some (.chunk (ChunkWriter.holding o buffered (dataBytes o es)
        (dataHasher o es) records coder out))) dropped
  | attachment {es header length data c dropped} : c.Holds o es → data.length ≤ length.toNat →
      Mode o ⟨es, .attachment header length data⟩ (some (.attachment
        (AttachmentWriter.holding o c (dataBytes o es) header length data))) dropped
  | lost {es header length data c} : c.Holds o es →
      Mode o ⟨es, .lost⟩ none (some (.attachment
        (AttachmentWriter.holding o c (dataBytes o es) header length data)))

omit [Encoders σ] in
/-- What the writer keeps for the summary is that of the entries. -/
structure Booked (w : Writer σ Stream) (es : List Entry) : Prop where
  chunkIndexes : w.chunkIndexes = chunkIndexesOf w.options es
  attachmentCount : w.attachmentCount = .ofNat (attachmentIndexesOf w.options es).length
  attachmentIndexes : w.attachmentIndexes =
    if w.options.emitAttachmentIndexes then attachmentIndexesOf w.options es else []
  metadataCount : w.metadataCount = .ofNat (metadataIndexesOf w.options es).length
  metadataIndexes : w.metadataIndexes =
    if w.options.emitMetadataIndexes then metadataIndexesOf w.options es else []

/-- **The writer has written what the journal says.** -/
structure Shows (w : Writer σ Stream) (j : Journal) : Prop where
  notFinished : w.finishedSummary = none
  mode : j.Mode w.options w.writer w.dropped
  packed : ∀ records out, .chunk records out ∈ j.entries → Packs σ w.options records out
  booked : Booked w j.entries

end

/-! ## How a step can end -/

section
variable {σ : Type} [Encoders σ] {α β : Type} {Q : α → Writer σ Stream → Prop}
  {x : Res McapError α × Writer σ Stream}

/-- The step succeeds and `Q` holds, or the encoder fails. -/
def OkOrIo (Q : α → Writer σ Stream → Prop) : Res McapError α × Writer σ Stream → Prop
  | (.ok a, s) => Q a s
  | (.err e, _) => IsIo e ∧ ¬ Coder.Reliable σ
  | (.panic, _) => False

theorem OkOrIo.bind {Q' : β → Writer σ Stream → Prop} {x : Exec (Writer σ Stream) McapError α}
    {f : α → Exec (Writer σ Stream) McapError β} {s : Writer σ Stream}
    (hx : OkOrIo Q (x s)) (hf : ∀ a s', Q a s' → OkOrIo Q' (f a s')) : OkOrIo Q' ((x >>= f) s) := by
  rw [Exec.bind_run]
  rcases h : x s with ⟨a | e | _, s'⟩ <;> rw [h] at hx
  · exact hf a s' hx
  · exact hx
  · exact hx

theorem OkOrIo.mono {Q' : α → Writer σ Stream → Prop} (hx : OkOrIo Q x)
    (h : ∀ a s, Q a s → Q' a s) : OkOrIo Q' x := by
  rcases x with ⟨a | e | _, s⟩
  · exact h a s hx
  · exact hx
  · exact hx

theorem OkOrIo.ok (h : OkOrIo Q x) (hr : Coder.Reliable σ) :
    ∃ a s, x = (.ok a, s) ∧ Q a s := by
  rcases x with ⟨a | e | _, s⟩
  · exact ⟨a, s, rfl, h⟩
  · exact absurd hr h.2
  · exact False.elim h

end

/-! ## Entries that are added -/

section
variable {σ : Type} {o : WriteOptions} {es : List Entry} {c : CountingCrcWriter Stream}
  {w w' : Writer σ Stream}

theorem CountingCrcWriter.Holds.push (h : c.Holds o es) (r : Record) :
    (c.push (dataBytes o es) r.frame).Holds o (es ++ [.record r]) where
  onTape := by
    rw [dataBytes_append, Entry.bytes_record]
    exact CountingCrcWriter.onTape_push ..
  hasher := by
    rw [dataHasher_append, ← h.hasher]
    rfl

theorem holds_closed (records : List Record) (out : Bytes) :
    (ChunkWriter.closed o (dataBytes o es) (dataHasher o es) records out).Holds o
      (es ++ [.chunk records out]) where
  onTape := by
    rw [dataBytes_append, Entry.bytes_chunk, ← List.append_assoc]
    exact CountingCrcWriter.onTape_push ..
  hasher := by
    rw [dataHasher_append, ChunkWriter.closed, CountingCrcWriter.push, CountingCrcWriter.account]
    simp only [CountingCrcWriter.withHasher, ChunkWriter.hasherAfter, Entry.hashed]
    rcases dataHasher o es with _ | hasher
    · rfl
    · cases o.calculateChunkCrcs <;> simp [ChunkWriter.joinHashers, Hasher.update, Hasher.combine]

theorem chunkIndexesOf_append (es : List Entry) (e : Entry) : chunkIndexesOf o (es ++ [e]) =
    chunkIndexesOf o es ++ (chunkIndexOf o ((dataBytes o es).length, e)).toList := by
  rw [chunkIndexesOf, placedEntries_append, List.filterMap_append]
  cases h : chunkIndexOf o ((dataBytes o es).length, e) <;> simp [h, chunkIndexesOf]

theorem attachmentIndexesOf_append (es : List Entry) (e : Entry) : attachmentIndexesOf o (es ++ [e]) =
    attachmentIndexesOf o es ++ (attachmentIndexOf o ((dataBytes o es).length, e)).toList := by
  rw [attachmentIndexesOf, placedEntries_append, List.filterMap_append]
  cases h : attachmentIndexOf o ((dataBytes o es).length, e) <;> simp [h, attachmentIndexesOf]

theorem metadataIndexesOf_append (es : List Entry) (e : Entry) : metadataIndexesOf o (es ++ [e]) =
    metadataIndexesOf o es ++ (metadataIndexOf ((dataBytes o es).length, e)).toList := by
  rw [metadataIndexesOf, placedEntries_append, List.filterMap_append]
  cases h : metadataIndexOf ((dataBytes o es).length, e) <;> simp [h, metadataIndexesOf]

theorem Booked.of_fields (h : Booked w es) (ho : w'.options = w.options)
    (hci : w'.chunkIndexes = w.chunkIndexes) (hac : w'.attachmentCount = w.attachmentCount)
    (hai : w'.attachmentIndexes = w.attachmentIndexes) (hmc : w'.metadataCount = w.metadataCount)
    (hmi : w'.metadataIndexes = w.metadataIndexes) : Booked w' es where
  chunkIndexes := by rw [hci, ho, h.chunkIndexes]
  attachmentCount := by rw [hac, ho, h.attachmentCount]
  attachmentIndexes := by rw [hai, ho, h.attachmentIndexes]
  metadataCount := by rw [hmc, ho, h.metadataCount]
  metadataIndexes := by rw [hmi, ho, h.metadataIndexes]

theorem Booked.of_eq (h : Booked w es) (hcore : w'.core = w.core)
    (hchunk : w'.chunkIndexes = w.chunkIndexes) : Booked w' es where
  chunkIndexes := by rw [hchunk, Writer.options_of_core hcore, h.chunkIndexes]
  attachmentCount := by
    rw [Writer.options_of_core hcore, ← h.attachmentCount]
    exact (show w'.core.attachmentCount = w.core.attachmentCount from congrArg _ hcore)
  attachmentIndexes := by
    rw [Writer.options_of_core hcore, ← h.attachmentIndexes]
    exact (show w'.core.attachmentIndexes = w.core.attachmentIndexes from congrArg _ hcore)
  metadataCount := by
    rw [Writer.options_of_core hcore, ← h.metadataCount]
    exact (show w'.core.metadataCount = w.core.metadataCount from congrArg _ hcore)
  metadataIndexes := by
    rw [Writer.options_of_core hcore, ← h.metadataIndexes]
    exact (show w'.core.metadataIndexes = w.core.metadataIndexes from congrArg _ hcore)

/-- **One more entry**, and what the writer keeps of it. -/
theorem Booked.step (h : Booked w es) {e : Entry} (ho : w'.options = w.options)
    (hchunk : w'.chunkIndexes = w.chunkIndexes ++
      (chunkIndexOf w.options ((dataBytes w.options es).length, e)).toList)
    (hac : w'.attachmentCount = w.attachmentCount +
      .ofNat (attachmentIndexOf w.options ((dataBytes w.options es).length, e)).toList.length)
    (hai : w'.attachmentIndexes = w.attachmentIndexes ++
      if w.options.emitAttachmentIndexes then
        (attachmentIndexOf w.options ((dataBytes w.options es).length, e)).toList else [])
    (hmc : w'.metadataCount = w.metadataCount +
      .ofNat (metadataIndexOf ((dataBytes w.options es).length, e)).toList.length)
    (hmi : w'.metadataIndexes = w.metadataIndexes ++
      if w.options.emitMetadataIndexes then
        (metadataIndexOf ((dataBytes w.options es).length, e)).toList else []) :
    Booked w' (es ++ [e]) where
  chunkIndexes := by rw [hchunk, h.chunkIndexes, ho, chunkIndexesOf_append]
  attachmentCount := by
    rw [hac, h.attachmentCount, ho, attachmentIndexesOf_append, List.length_append,
      UInt32.ofNat_add]
  attachmentIndexes := by
    rw [hai, h.attachmentIndexes, ho, attachmentIndexesOf_append]
    split <;> rfl
  metadataCount := by
    rw [hmc, h.metadataCount, ho, metadataIndexesOf_append, List.length_append, UInt32.ofNat_add]
  metadataIndexes := by
    rw [hmi, h.metadataIndexes, ho, metadataIndexesOf_append]
    split <;> rfl

theorem Booked.append (h : Booked w es) {r : Record} (hr : r.Unindexed) (hcore : w'.core = w.core)
    (hchunk : w'.chunkIndexes = w.chunkIndexes) :
    Booked w' (es ++ [.record r]) := by
  have hattachment : ∀ pos, attachmentIndexOf w'.options (pos, .record r) = none := by
    intro pos
    cases r <;> first | rfl | exact hr.elim
  have hmetadata : ∀ pos, metadataIndexOf (pos, .record r) = none := by
    intro pos
    cases r <;> first | rfl | exact hr.elim
  refine (h.of_eq hcore hchunk).step rfl ?_ ?_ ?_ ?_ ?_
  · simp [chunkIndexOf]
  · simp [hattachment]
  · simp [hattachment]
  · simp [hmetadata]
  · simp [hmetadata]

end

/-! ## Steps of a writer -/

section
variable {σ : Type} [Encoders σ] {w : Writer σ Stream} {j : Journal} {es : List Entry}
  {records : List Record}

theorem Shows.raw (h : Shows w ⟨es, .raw⟩) : ∃ c, w.writer = some (.raw c) ∧ c.Holds w.options es := by
  have hm := h.mode
  generalize w.writer = slot, w.dropped = dropped at hm
  cases hm with
  | raw hc => exact ⟨_, rfl, hc⟩

theorem Shows.chunk (h : Shows w ⟨es, .chunk records⟩) : ∃ coder out buffered,
    w.writer = some (.chunk (ChunkWriter.holding w.options buffered (dataBytes w.options es)
      (dataHasher w.options es) records coder out)) ∧ Coder.Ran σ w.options records coder out := by
  have hm := h.mode
  generalize w.writer = slot, w.dropped = dropped at hm
  cases hm with
  | chunk hran => exact ⟨_, _, _, rfl, hran⟩

theorem Shows.attachment {header : AttachmentHeader} {length : UInt64} {data : Bytes}
    (h : Shows w ⟨es, .attachment header length data⟩) : ∃ c, c.Holds w.options es ∧
      data.length ≤ length.toNat ∧ w.writer = some (.attachment
        (AttachmentWriter.holding w.options c (dataBytes w.options es) header length data)) := by
  have hm := h.mode
  generalize w.writer = slot, w.dropped = dropped at hm
  cases hm with
  | attachment hc hlen => exact ⟨_, hc, hlen, rfl⟩

/-- **The writer has gone on**: `records` have been added to the journal, and nothing but
the write mode and the chunk indexes has changed. -/
structure Extended (w : Writer σ Stream) (j : Journal) (records : List Record)
    (w' : Writer σ Stream) (j' : Journal) : Prop where
  core : w'.core = w.core
  shows_ : Shows w' j'
  isOpen : j'.Open
  flat : j'.flat = j.flat ++ records

theorem Extended.refl (h : Shows w j) (ho : j.Open) : Extended w j [] w j :=
  ⟨rfl, h, ho, (List.append_nil _).symm⟩

theorem Extended.trans {w' w'' : Writer σ Stream} {j' j'' : Journal} {records' : List Record}
    (h : Extended w j records w' j') (h' : Extended w' j' records' w'' j'') :
    Extended w j (records ++ records') w'' j'' :=
  ⟨h'.core.trans h.core, h'.shows_, h'.isOpen, by rw [h'.flat, h.flat, List.append_assoc]⟩

namespace Writer

theorem startChunk_shows (h : Shows w j) (ho : j.Open) (huse : w.options.useChunks = true) :
    OkOrIo (fun _ w' => ∃ j', Extended w j [] w' j' ∧ ∃ records, j'.tail = .chunk records)
      (startChunk w) := by
  obtain ⟨es, tail⟩ := j
  rw [startChunk, Exec.bind_ok (assertNotFinished_run h.notFinished), Exec.bind_ok (Exec.get_run w)]
  rcases ho with rfl | ⟨records, rfl⟩
  · obtain ⟨c, hc, hholds⟩ := h.raw
    simp only [hc, huse, Exec.bind_run, Exec.assert_true_run]
    cases hs : (Coder.start w.options.compression w.options.compressionLevel
        w.options.compressionThreads : Except IoError (Coder σ × Bytes)) with
    | error e =>
      rw [ChunkWriter.new_error hholds.onTape w.chunkMode hs]
      exact ⟨⟨e, rfl⟩, fun hr => hr.start_ne hs⟩
    | ok r =>
      obtain ⟨coder, out⟩ := r
      rw [ChunkWriter.new_holding hholds.onTape w.chunkMode hs, hholds.hasher]
      refine ⟨⟨es, .chunk []⟩, ⟨rfl, ⟨h.notFinished, .chunk (.start hs), h.packed, ?_⟩,
        .inr ⟨[], rfl⟩, ?_⟩, [], rfl⟩
      · exact h.booked.of_eq rfl rfl
      · simp [Journal.flat]
  · obtain ⟨coder, out, buffered, hw, hran⟩ := h.chunk
    simp only [hw, huse, Exec.bind_run, Exec.assert_true_run]
    exact ⟨_, .refl h (.inr ⟨records, rfl⟩), records, rfl⟩

theorem finishChunk_shows (h : Shows w j) (ho : j.Open) :
    OkOrIo (fun _ w' => ∃ j', Extended w j [] w' j' ∧ j'.tail = .raw) (finishChunk w) := by
  obtain ⟨es, tail⟩ := j
  rw [finishChunk, Exec.bind_ok (assertNotFinished_run h.notFinished), Exec.bind_ok (Exec.get_run w)]
  rcases ho with rfl | ⟨records, rfl⟩
  · obtain ⟨c, hc, hholds⟩ := h.raw
    simp only [hc]
    exact ⟨_, .refl h (.inl rfl), rfl⟩
  · obtain ⟨coder, out, buffered, hw, hran⟩ := h.chunk
    simp only [hw]
    cases hf : coder.finish with
    | error e =>
      rw [ChunkWriter.finish_error hf]
      exact ⟨⟨e, rfl⟩, fun hr => hr.finish_ne hf⟩
    | ok x =>
      rw [ChunkWriter.finish_holding hf]
      refine ⟨⟨es ++ [.chunk records (out ++ x)], .raw⟩, ⟨rfl, ⟨h.notFinished, .raw
        (holds_closed records (out ++ x)), ?_, ?_⟩, .inl rfl, ?_⟩, rfl⟩
      · intro rs b hmem
        rcases List.mem_append.mp hmem with hold | hnew
        · exact h.packed rs b hold
        · cases List.mem_singleton.mp hnew
          exact ⟨coder, out, x, hran, hf, rfl⟩
      · refine h.booked.step rfl rfl ?_ ?_ ?_ ?_ <;> simp [attachmentIndexOf, metadataIndexOf]
      · simp [Journal.flat, Entry.flat]

/-! ### Records -/

/-- A step on the open chunk that adds the record `r`. -/
def AddsToChunk (r : Record) (f : ChunkWriter σ Stream →
    Res (McapError × ChunkWriter σ Stream) (ChunkWriter σ Stream)) : Prop :=
  ∀ {o : WriteOptions} {buffered : Bool} {base : Bytes} {pre : Option Hasher}
    {records : List Record} {coder : Coder σ} {out : Bytes},
    (∀ {coder' x}, coder.push r.frame = .ok (coder', x) →
      f (ChunkWriter.holding o buffered base pre records coder out) =
        .ok (ChunkWriter.holding o buffered base pre (records ++ [r]) coder' (out ++ x))) ∧
    ∀ {e coder'}, coder.push r.frame = .error (e, coder') →
      ∃ c, f (ChunkWriter.holding o buffered base pre records coder out) = .err (.io e, c)

theorem addsToChunk_writeRecord {r : Record} (hr : r.written = some r.frame)
    (hmsg : ∀ header data, r ≠ .message header data) :
    AddsToChunk r (fun c : ChunkWriter σ Stream => c.writeRecord r) :=
  ⟨fun h => ChunkWriter.writeRecord_holding hr hmsg h,
    fun h => ⟨_, ChunkWriter.writeRecord_error hr h⟩⟩

theorem addsToChunk_writeMessage (header : MessageHeader) (data : Bytes) :
    AddsToChunk (.message header data)
      (fun c : ChunkWriter σ Stream => c.writeMessage header data) :=
  ⟨fun h => ChunkWriter.writeMessage_holding h, fun h => ChunkWriter.writeMessage_error h⟩

variable {r : Record}
  {f : ChunkWriter σ Stream → Res (McapError × ChunkWriter σ Stream) (ChunkWriter σ Stream)}

theorem onChunk_shows (hf : AddsToChunk r f) (h : Shows w j)
    (hchunk : ∃ records, j.tail = .chunk records) :
    OkOrIo (fun _ w' => ∃ j', Extended w j [r] w' j') (onChunk f w) := by
  obtain ⟨es, tail⟩ := j
  obtain ⟨records, rfl⟩ := hchunk
  obtain ⟨coder, out, buffered, hw, hran⟩ := h.chunk
  simp only [onChunk, hw]
  cases hp : coder.push r.frame with
  | error res =>
    obtain ⟨e, coder'⟩ := res
    obtain ⟨c, hc⟩ := hf.2 hp
    rw [hc]
    exact ⟨⟨e, rfl⟩, fun hr => hr.push_ne hp⟩
  | ok res =>
    obtain ⟨coder', x⟩ := res
    rw [hf.1 hp]
    refine ⟨⟨es, .chunk (records ++ [r])⟩, rfl, ⟨h.notFinished, .chunk (hran.push hp), h.packed,
      h.booked.of_eq rfl rfl⟩, .inr ⟨_, rfl⟩, ?_⟩
    simp [Journal.flat]

theorem chunkStep_shows (hf : AddsToChunk r f) (h : Shows w j) (ho : j.Open)
    (huse : w.options.useChunks = true) :
    OkOrIo (fun _ w' => ∃ j', Extended w j [r] w' j') ((startChunk >>= fun _ => onChunk f) w) := by
  refine (startChunk_shows h ho huse).bind fun _ w' hq => ?_
  obtain ⟨j', hext, hchunk⟩ := hq
  refine (onChunk_shows hf hext.shows_ hchunk).mono fun _ w'' hq' => ?_
  obtain ⟨j'', hext'⟩ := hq'
  exact ⟨j'', hext.trans hext'⟩

theorem chunkRecord_shows {r : Record} (hr : r.written = some r.frame)
    (hmsg : ∀ header data, r ≠ .message header data) (h : Shows w j) (ho : j.Open)
    (huse : w.options.useChunks = true) :
    OkOrIo (fun _ w' => ∃ j', Extended w j [r] w' j') (chunkRecord r w) :=
  chunkStep_shows (addsToChunk_writeRecord hr hmsg) h ho huse

theorem topRecord_shows (hr : r.written = some r.frame) (hun : r.Unindexed) (h : Shows w j)
    (ho : j.Open) :
    OkOrIo (fun _ w' => ∃ j', Extended w j [r] w' j') (topRecord r w) := by
  refine (finishChunk_shows h ho).bind fun _ w' hq => ?_
  obtain ⟨⟨es, tail⟩, hext, rfl⟩ := hq
  obtain ⟨c, hc, hholds⟩ := hext.shows_.raw
  simp only [onRaw, hc]
  rw [writeRecord_of_writeAll hr (hholds.onTape.writeAll _)]
  have hnext : Extended w' ⟨es, .raw⟩ [r]
      { w' with writer := some (.raw (c.push (dataBytes w'.options es) r.frame)) }
      ⟨es ++ [.record r], .raw⟩ := by
    refine ⟨rfl, ⟨hext.shows_.notFinished, .raw (hholds.push r), ?_,
      hext.shows_.booked.append hun rfl rfl⟩, .inl rfl, ?_⟩
    · intro rs b hmem
      rcases List.mem_append.mp hmem with hold | hnew
      · exact hext.shows_.packed rs b hold
      · cases List.mem_singleton.mp hnew
    · simp [Journal.flat, Entry.flat]
  exact ⟨_, hext.trans hnext⟩

theorem writeDefinition_shows (hr : r.written = some r.frame) (hun : r.Unindexed)
    (hmsg : ∀ header data, r ≠ .message header data) (h : Shows w j) (ho : j.Open) :
    OkOrIo (fun _ w' => ∃ j', Extended w j [r] w' j') (writeDefinition r w) := by
  rw [writeDefinition, Exec.bind_ok (Exec.get_run w)]
  split
  · exact chunkRecord_shows hr hmsg h ho ‹_›
  · exact topRecord_shows hr hun h ho

theorem rollChunk_shows (h : Shows w j) (ho : j.Open) :
    OkOrIo (fun _ w' => ∃ j', Extended w j [] w' j') (rollChunk w) := by
  have hstay : OkOrIo (fun _ w' => ∃ j', Extended w j [] w' j')
      ((pure () : Exec (Writer σ Stream) McapError Unit) w) := ⟨j, .refl h ho⟩
  rw [rollChunk, Exec.bind_ok (Exec.get_run w)]
  rcases w.writer with _ | (c | c | a | s) <;> rcases w.options.chunkSize with _ | target
  case some.chunk.some =>
    simp only
    split
    · exact (finishChunk_shows h ho).mono fun _ _ h => h.imp fun _ h => h.1
    · exact hstay
  all_goals exact hstay

theorem writeMessageRecord_shows (header : MessageHeader) (data : Bytes) (h : Shows w j)
    (ho : j.Open) : OkOrIo (fun _ w' => ∃ j', Extended w j [.message header data] w' j')
      (writeMessageRecord header data w) := by
  rw [writeMessageRecord, Exec.bind_ok (Exec.get_run w)]
  split
  · exact chunkStep_shows (addsToChunk_writeMessage header data) h ho ‹_›
  · exact topRecord_shows (congrArg some (Record.written_eq_some rfl)) trivial h ho

end Writer
end

end Mcap

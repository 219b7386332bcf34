import Mcap.PyLayout

/-! # The journal of a writer of the Python library

The records that a writer has been given are in its stream, or wait in the record builder, or wait in
the chunk builder.  `Laid` says what the writer makes of that: the stream and the checksum
(`Tape`), the indexes that it keeps of the stream (`Indexed`), and the chunk that is open
(`Holds`).  `Books` says what it makes of the calls, and `Kept` that no record is lost on the way.

Each of them is about some of the fields of a writer only, and a method is taken apart accordingly.
-/
namespace Mcap
namespace Py

open Written (allBytes placed)

/-! ## Compression -/

/-- **What is compressed is decompressed.** -/
structure Inverse (C : Compressors) (D : Decompressors) : Prop where
  zstd : ∀ f, C.zstd = some f → ∃ g, D.zstd = some g ∧ ∀ data, g (f data) data.length = .ok data
  lz4 : ∀ f, C.lz4 = some f → ∃ g, D.lz4 = some g ∧ ∀ data, g (f data) = .ok data

/-- The module for the compression is installed. -/
def Available (opts : WriterOptions) (C : Compressors) : Prop :=
  (opts.compression = .lz4 → C.lz4 ≠ none) ∧ (opts.compression = .zstd → C.zstd ≠ none)

theorem zlibCrc32_crc32 (front data : Bytes) : zlibCrc32 data (crc32 front) = crc32 (front ++ data) := by
  unfold zlibCrc32 crc32
  rw [UInt32.not_not, List.foldl_append]

/-! ## Methods that return -/

section
variable {α β : Type} {w w' : Writer}

theorem writing_bind {m : Writing α} {f : α → Writing β} {b : β}
    (h : (m >>= f) w = .ok (b, w')) : ∃ a w₁, m w = .ok (a, w₁) ∧ f a w₁ = .ok (b, w') :=
  run_bind_eq_ok h

theorem writing_lift {x : Except PyError α} {a : α} (h : (liftM x : Writing α) w = .ok (a, w')) :
    x = .ok a ∧ w' = w := by
  change x.bind (fun a => .ok (a, w)) = _ at h
  cases x with
  | error e => cases h
  | ok a' =>
    cases h
    exact ⟨rfl, rfl⟩

end

/-! ## The stream -/

section
variable {opts : WriterOptions} {w w' : Writer} {flushed pending : List Written}

/-- **The stream and the record builder** of a writer. -/
structure Tape (opts : WriterOptions) (w : Writer) (flushed pending : List Written) : Prop where
  stream : w.stream = MAGIC ++ allBytes flushed
  buffer : w.recordBuilder.buffer = allBytes pending
  crc : opts.enableDataCrcs = true → w.dataSectionCrc = crc32 w.stream
  noCrc : opts.enableDataCrcs = false → w.dataSectionCrc = 0

theorem Tape.congr (h : Tape opts w flushed pending) (hstream : w'.stream = w.stream)
    (hbuilder : w'.recordBuilder.buffer = w.recordBuilder.buffer)
    (hcrc : w'.dataSectionCrc = w.dataSectionCrc) : Tape opts w' flushed pending where
  stream := hstream.trans h.stream
  buffer := hbuilder.trans h.buffer
  crc henabled := by rw [hcrc, hstream, h.crc henabled]
  noCrc hdisabled := by rw [hcrc, h.noCrc hdisabled]

theorem Tape.flush (h : Tape opts w flushed pending) :
    Tape opts (w.flushed opts) (flushed ++ pending) [] where
  stream := by
    show w.stream ++ w.recordBuilder.buffer = _
    rw [h.stream, h.buffer, Written.allBytes_append, List.append_assoc]
  buffer := rfl
  crc henabled := by
    show (if opts.enableDataCrcs then zlibCrc32 w.recordBuilder.buffer w.dataSectionCrc else _) =
      crc32 (w.stream ++ w.recordBuilder.buffer)
    rw [if_pos henabled, h.crc henabled, zlibCrc32_crc32]
  noCrc hdisabled := by
    show (if opts.enableDataCrcs then _ else w.dataSectionCrc) = _
    rw [if_neg (by rw [hdisabled]; exact Bool.false_ne_true), h.noCrc hdisabled]

theorem build_eq_ok (record : McapRecord) (h : Writer.build record.write w = .ok ((), w')) :
    ∃ x : Written, x.record = record ∧
      ∃ b, w' = { w with recordBuilder := b } ∧ b.buffer = w.recordBuilder.buffer ++ x.bytes := by
  obtain ⟨⟨⟨⟩, b⟩, hwrite, h⟩ := Mcap.bind_eq_ok h
  cases h
  obtain ⟨x, hx, hbuffer, -⟩ := write_eq_ok _ hwrite
  exact ⟨x, hx, b, rfl, hbuffer⟩

theorem Tape.build (h : Tape opts w flushed pending) {x : Written} {b : RecordBuilder}
    (hb : b.buffer = w.recordBuilder.buffer ++ x.bytes) :
    Tape opts { w with recordBuilder := b } flushed (pending ++ [x]) where
  stream := h.stream
  buffer := by
    show b.buffer = _
    rw [hb, h.buffer, Written.allBytes_append]
    simp
  crc := h.crc
  noCrc := h.noCrc

/-- **A record that is built and flushed.** -/
theorem Tape.record (h : Tape opts w flushed []) (record : McapRecord)
    (hbuild : Writer.build record.write w = .ok ((), w')) :
    ∃ x : Written, x.record = record ∧ w'.recordBuilder.count = x.size ∧
      Tape opts (w'.flushed opts) (flushed ++ [x]) [] ∧
      ∃ b, w' = { w with recordBuilder := b } := by
  obtain ⟨x, hx, b, rfl, hb⟩ := build_eq_ok record hbuild
  refine ⟨x, hx, ?_, (h.build hb).flush, b, rfl⟩
  show b.buffer.length = _
  rw [hb, h.buffer]
  rfl

theorem Tape.records (h : Tape opts w flushed []) {l : List Written} {b : RecordBuilder}
    (hb : b.buffer = allBytes l) :
    Tape opts (Writer.flushed opts { w with recordBuilder := b }) (flushed ++ l) [] :=
  (⟨h.stream, hb, h.crc, h.noCrc⟩ : Tape opts { w with recordBuilder := b } flushed l).flush

end

/-! ## The indexes -/

/-- Records that are in a data section; a chunk can be broken up. -/
def McapRecord.InData (D : Decompressors) : McapRecord → Prop
  | .header _ => True
  | .schema _ => True
  | .channel _ => True
  | .message _ => True
  | .attachment _ => True
  | .metadata _ => True
  | .messageIndex _ => True
  | .chunk c => ∃ records, breakupChunk D c true = .ok records ∧ ∀ r ∈ records, r.InChunk
  | _ => False

/-- Records that are neither chunks nor belong to one. -/
def McapRecord.Plain : McapRecord → Prop
  | .header _ => True
  | .schema _ => True
  | .channel _ => True
  | .message _ => True
  | .attachment _ => True
  | .metadata _ => True
  | _ => False

namespace McapRecord
variable {record : McapRecord}

theorem InChunk.plain (h : record.InChunk) : record.Plain := by
  cases record <;> first | exact h | exact trivial

theorem Plain.inData {D : Decompressors} (h : record.Plain) : record.InData D := by
  cases record <;> first | exact trivial | cases h

theorem Plain.chunk? (h : record.Plain) : record.chunk? = none := by
  cases record <;> first | rfl | cases h

theorem Plain.messageIndex? (h : record.Plain) : record.messageIndex? = none := by
  cases record <;> first | rfl | cases h

theorem Plain.contentsOf (h : record.Plain) (D : Decompressors) : contentsOf D record = [record] := by
  cases record <;> first | rfl | cases h

theorem InChunk.attachment? (h : record.InChunk) : record.attachment? = none := by
  cases record <;> first | rfl | cases h

theorem InChunk.metadata? (h : record.InChunk) : record.metadata? = none := by
  cases record <;> first | rfl | cases h

end McapRecord

/-- **The indexes of a writer** are those of the records in the stream. -/
structure Indexed (opts : WriterOptions) (D : Decompressors) (w : Writer) (flushed : List Written) :
    Prop where
  inData : ∀ x ∈ flushed, x.record.InData D
  chunkIndices : w.chunkIndices = (groups (placed 8 flushed)).map Group.chunkIndex
  sound : ∀ g ∈ groups (placed 8 flushed), ∃ data, g.Sound D opts.indexTypes.message data
  messageIndexes : (flushed.map Written.record).filterMap McapRecord.messageIndex? =
    (groups (placed 8 flushed)).flatMap fun g => g.indexes.map IndexPlace.index
  attachmentIndexes : w.attachmentIndexes =
    if opts.indexTypes.attachment then (placed 8 flushed).filterMap attachmentIndexOf else []
  metadataIndexes : w.metadataIndexes =
    if opts.indexTypes.metadata then (placed 8 flushed).filterMap metadataIndexOf else []
  chunkCount : w.statistics.chunkCount = (groups (placed 8 flushed)).length

section
variable {opts : WriterOptions} {D : Decompressors} {w w' : Writer} {flushed l : List Written}

theorem forall_placed {P : McapRecord → Prop} {pos : Nat} (h : ∀ x ∈ l, P x.record) :
    ∀ p ∈ placed pos l, P p.record := by
  intro p hp
  obtain ⟨⟨q, x⟩, hx, rfl⟩ := List.mem_map.mp hp
  exact h x (snd_of_mem_positions _ hx)

theorem indexPlaces_plain {pos : Nat} (h : ∀ x ∈ l, x.record.Plain) :
    indexPlaces (placed pos l) = [] := by
  cases l with
  | nil => rfl
  | cons x l =>
    rw [Written.placed_cons, indexPlaces, (h x List.mem_cons_self).messageIndex?]

theorem groups_plain {pos : Nat} (h : ∀ x ∈ l, x.record.Plain) : groups (placed pos l) = [] :=
  groups_eq_nil (forall_placed (P := fun r => r.chunk? = none) fun x hx => (h x hx).chunk?)

theorem placed_behind (flushed l : List Written) :
    placed 8 (flushed ++ l) =
      placed 8 flushed ++ placed (MAGIC ++ allBytes flushed).length l := by
  rw [Written.placed_append, List.length_append, MAGIC_length]

/-- **Plain records behind the stream**, with their indexes. -/
theorem Indexed.append (h : Indexed opts D w flushed) (hl : ∀ x ∈ l, x.record.Plain)
    (hchunks : w'.chunkIndices = w.chunkIndices)
    (hcount : w'.statistics.chunkCount = w.statistics.chunkCount)
    (hattachments : w'.attachmentIndexes = w.attachmentIndexes ++
      if opts.indexTypes.attachment then
        (placed (MAGIC ++ allBytes flushed).length l).filterMap attachmentIndexOf
      else [])
    (hmetadata : w'.metadataIndexes = w.metadataIndexes ++
      if opts.indexTypes.metadata then
        (placed (MAGIC ++ allBytes flushed).length l).filterMap metadataIndexOf
      else []) :
    Indexed opts D w' (flushed ++ l) := by
  have hgroups : groups (placed 8 (flushed ++ l)) = groups (placed 8 flushed) := by
    rw [placed_behind, groups_append (indexPlaces_plain hl), groups_plain hl, List.append_nil]
  constructor
  · intro x hx
    exact (List.mem_append.mp hx).elim (h.inData x) fun hx => (hl x hx).inData
  · rw [hgroups, hchunks, h.chunkIndices]
  · rw [hgroups]
    exact h.sound
  · have hnil : (l.map Written.record).filterMap McapRecord.messageIndex? = [] := by
      refine List.filterMap_eq_nil_iff.mpr fun r hr => ?_
      obtain ⟨x, hx, rfl⟩ := List.mem_map.mp hr
      exact (hl x hx).messageIndex?
    rw [hgroups, List.map_append, List.filterMap_append, hnil, List.append_nil, h.messageIndexes]
  · rw [hattachments, h.attachmentIndexes, placed_behind, List.filterMap_append]
    split <;> rfl
  · rw [hmetadata, h.metadataIndexes, placed_behind, List.filterMap_append]
    split <;> rfl
  · rw [hgroups, hcount, h.chunkCount]

end

/-! ## The open chunk -/

/-- The index of a channel of a chunk, if it has messages. -/
def indexOf (id : Nat) (l : List Place) : Option MessageIndex :=
  if entriesOf id l = [] then none else some ⟨id, entriesOf id l⟩

/-- **A chunk builder and the records that it holds.** -/
structure Holds (c : ChunkBuilder) (inner : List Written) : Prop where
  buffer : c.recordWriter.buffer = allBytes inner
  numMessages : c.numMessages = (logTimes (inner.map Written.record)).length
  startTime : c.messageStartTime = leastTime (logTimes (inner.map Written.record))
  endTime : c.messageEndTime = greatestTime (logTimes (inner.map Written.record))
  index : ∀ id, c.messageIndices.get? id = indexOf id (placed 0 inner)
  inChunk : ∀ x ∈ inner, x.record.InChunk

theorem holds_new : Holds .new [] where
  buffer := rfl
  numMessages := rfl
  startTime := rfl
  endTime := rfl
  index _ := rfl
  inChunk _ hx := absurd hx List.not_mem_nil

section
variable {c c' : ChunkBuilder} {inner : List Written}

theorem holds_reset (c : ChunkBuilder) : Holds c.reset [] where
  buffer := rfl
  numMessages := rfl
  startTime := rfl
  endTime := rfl
  index _ := rfl
  inChunk _ hx := absurd hx List.not_mem_nil

theorem placed_concat (inner : List Written) (x : Written) :
    placed 0 (inner ++ [x]) = placed 0 inner ++ [⟨(allBytes inner).length, x.size, x.record⟩] := by
  rw [Written.placed_append, Nat.zero_add]
  rfl

theorem Holds.quiet (h : Holds c inner) {x : Written} {b : RecordBuilder} (hx : x.record.InChunk)
    (hquiet : x.record.message? = none) (hb : b.buffer = c.recordWriter.buffer ++ x.bytes) :
    Holds { c with recordWriter := b } (inner ++ [x]) := by
  have htimes : logTimes ((inner ++ [x]).map Written.record) = logTimes (inner.map Written.record) := by
    rw [List.map_append, logTimes_append, List.map_singleton]
    unfold logTimes
    rw [List.filterMap_cons_none hquiet]
    exact List.append_nil _
  have hentries : ∀ id, entriesOf id (placed 0 (inner ++ [x])) = entriesOf id (placed 0 inner) := by
    intro id
    rw [placed_concat, entriesOf_append]
    unfold entriesOf
    rw [List.filterMap_cons_none (by simp only [hquiet]; rfl)]
    exact List.append_nil _
  constructor
  · show b.buffer = _
    rw [hb, h.buffer, Written.allBytes_append]
    simp
  · rw [htimes]
    exact h.numMessages
  · rw [htimes]
    exact h.startTime
  · rw [htimes]
    exact h.endTime
  · intro id
    unfold indexOf
    rw [hentries]
    exact h.index id
  · intro y hy
    rcases List.mem_append.mp hy with hy | hy
    · exact h.inChunk y hy
    · rw [List.mem_singleton.mp hy]
      exact hx

theorem get?_addEntry_self (d : Dict Nat MessageIndex) (id : Nat) (entry : Nat × Nat) :
    (ChunkBuilder.addEntry d id entry).get? id =
      some (match d.get? id with
        | some index => { index with records := index.records ++ [entry] }
        | none => ⟨id, [entry]⟩) := by
  unfold ChunkBuilder.addEntry
  cases d.get? id with
  | some index | none => exact Dict.get?_set_self _ _ _

theorem get?_addEntry_ne {d : Dict Nat MessageIndex} {id id' : Nat} (h : id' ≠ id)
    (entry : Nat × Nat) : (ChunkBuilder.addEntry d id entry).get? id' = d.get? id' := by
  unfold ChunkBuilder.addEntry
  cases d.get? id with
  | some index | none => exact Dict.get?_set_ne h _

theorem entriesOf_message (id offset length : Nat) (m : Message) :
    entriesOf id [⟨offset, length, .message m⟩] =
      if m.channelId = id then [(m.logTime, offset)] else [] := by
  unfold entriesOf
  by_cases hid : m.channelId = id
  · simp [McapRecord.message?, hid]
  · simp [McapRecord.message?, hid]

theorem Holds.message (h : Holds c inner) {x : Written} {m : Message} {b : RecordBuilder}
    (hx : x.record = .message m) (hb : b.buffer = c.recordWriter.buffer ++ x.bytes) :
    Holds
      { messageEndTime := max c.messageEndTime m.logTime
        messageIndices := ChunkBuilder.addEntry c.messageIndices m.channelId (m.logTime, c.count)
        messageStartTime :=
          if c.numMessages = 0 then m.logTime else min c.messageStartTime m.logTime
        recordWriter := b
        numMessages := c.numMessages + 1 } (inner ++ [x]) := by
  have htimes : logTimes ((inner ++ [x]).map Written.record) =
      logTimes (inner.map Written.record) ++ [m.logTime] := by
    rw [List.map_append, logTimes_append, List.map_singleton, hx]
    rfl
  have hentries : ∀ id, entriesOf id (placed 0 (inner ++ [x])) = entriesOf id (placed 0 inner) ++
      if m.channelId = id then [(m.logTime, c.count)] else [] := by
    intro id
    have hcount : c.count = (allBytes inner).length := congrArg List.length h.buffer
    rw [placed_concat, entriesOf_append, hx, hcount, entriesOf_message]
  constructor
  · show b.buffer = _
    rw [hb, h.buffer, Written.allBytes_append]
    simp
  · rw [htimes, List.length_append]
    exact congrArg (· + 1) h.numMessages
  · rw [htimes, leastTime_concat, ← h.numMessages, ← h.startTime]
  · rw [htimes, greatestTime_concat, ← h.endTime]
  · intro id
    unfold indexOf
    rw [hentries]
    by_cases hid : m.channelId = id
    · subst hid
      have hindex := h.index m.channelId
      have hne : entriesOf m.channelId (placed 0 inner) ++ [(m.logTime, c.count)] ≠ [] := by simp
      show (ChunkBuilder.addEntry _ _ _).get? _ = _
      rw [if_pos rfl, if_neg hne, get?_addEntry_self, hindex]
      unfold indexOf
      split
      · rename_i index hsome
        split at hsome
        · cases hsome
        · cases hsome
          rfl
      · rename_i hnone
        split at hnone
        · rename_i hnil
          rw [hnil]
          rfl
        · cases hnone
    · rw [if_neg hid, List.append_nil]
      show (ChunkBuilder.addEntry _ _ _).get? _ = _
      rw [get?_addEntry_ne (Ne.symm hid)]
      exact h.index id
  · intro y hy
    rcases List.mem_append.mp hy with hy | hy
    · exact h.inChunk y hy
    · rw [List.mem_singleton.mp hy, hx]
      trivial

end

/-! ## Closing a chunk -/

/-- The channels of message indexes, with the places of their records. -/
def indexOffsets (l : List IndexPlace) : List (Nat × Nat) :=
  l.map fun i => (i.index.channelId, i.offset)

theorem indexPlaces_cons {pos : Nat} {x : Written} {index : MessageIndex}
    (h : x.record = .messageIndex index) (l : List Written) :
    indexPlaces (placed pos (x :: l)) =
      ⟨pos, x.size, index⟩ :: indexPlaces (placed (pos + x.size) l) := by
  rw [Written.placed_cons, indexPlaces]
  simp only [h]
  rfl

/-- **What the records of message indexes come to.** -/
theorem writeMessageIndexes_eq_ok {start : Nat} {items : List (Nat × MessageIndex)}
    {offsets offsets' : Dict Nat Nat} {b b' : RecordBuilder}
    (hitems : ∀ i ∈ items, i.2.channelId = i.1)
    (h : Writer.writeMessageIndexes start items offsets b = .ok (offsets', b')) :
    ∃ l : List Written, l.map Written.record = items.map (fun i => .messageIndex i.2) ∧
      b'.buffer = b.buffer ++ allBytes l ∧
      offsets' = offsets.setAll (indexOffsets (indexPlaces (placed (start + b.buffer.length) l))) := by
  induction items generalizing offsets b with
  | nil =>
    cases h
    exact ⟨[], rfl, (List.append_nil _).symm, rfl⟩
  | cons i items ih =>
    obtain ⟨id, index⟩ := i
    have hid : index.channelId = id := hitems (id, index) List.mem_cons_self
    obtain ⟨⟨⟨⟩, b₁⟩, hwrite, h⟩ := Mcap.bind_eq_ok h
    obtain ⟨x, hx, hbuffer, -⟩ := write_eq_ok (.messageIndex index) hwrite
    obtain ⟨l, hl, hbuffer', hoffsets⟩ :=
      ih (fun i hi => hitems i (List.mem_cons_of_mem _ hi)) h
    refine ⟨x :: l, ?_, ?_, ?_⟩
    · rw [List.map_cons, List.map_cons, hx, hl]
    · rw [hbuffer', hbuffer, Written.allBytes_cons, List.append_assoc]
    · have hpos : start + b₁.buffer.length = start + b.buffer.length + x.size := by
        rw [hbuffer, List.length_append, Nat.add_assoc]
        rfl
      rw [hoffsets, indexPlaces_cons hx, hpos]
      show _ = (offsets.set index.channelId (start + b.buffer.length)).setAll _
      rw [hid]
      rfl

theorem closeChunk_eq_ok {opts : WriterOptions} {C : Compressors} {c : ChunkBuilder} {w w' : Writer}
    (h : Writer.closeChunk opts C c w = .ok ((), w')) :
    ∃ w₁ offsets b, Writer.build (Writer.chunkOf opts C c).write (Writer.flushed opts
        { w with statistics := { w.statistics with chunkCount := w.statistics.chunkCount + 1 } }) =
          .ok ((), w₁) ∧
      Writer.indexRecords opts c (w₁.flushed opts).stream.length (w₁.flushed opts).recordBuilder =
        .ok (offsets, b) ∧
      ∃ w₂, w₂ = Writer.flushed opts { w₁.flushed opts with recordBuilder := b } ∧
        w' = { w₂ with
          chunkIndices := w₂.chunkIndices ++
            [{ messageStartTime := (Writer.chunkOf opts C c).messageStartTime
               messageEndTime := (Writer.chunkOf opts C c).messageEndTime
               chunkStartOffset := (w.flushed opts).stream.length
               chunkLength := w₁.recordBuilder.count
               messageIndexOffsets := offsets
               messageIndexLength := b.count
               compression := (Writer.chunkOf opts C c).compression
               compressedSize := (Writer.chunkOf opts C c).data.length
               uncompressedSize := (Writer.chunkOf opts C c).uncompressedSize }]
          chunkBuilder := some c.reset } := by
  obtain ⟨_, w₀, hcount, h⟩ := writing_bind h
  cases hcount
  obtain ⟨_, w₀', hflush, h⟩ := writing_bind h
  cases hflush
  obtain ⟨_, w₀', hget, h⟩ := writing_bind h
  cases hget
  obtain ⟨_, w₁, hbuild, h⟩ := writing_bind h
  obtain ⟨_, w₁', hget, h⟩ := writing_bind h
  cases hget
  obtain ⟨_, w₁', hflush, h⟩ := writing_bind h
  cases hflush
  obtain ⟨_, w₁', hget, h⟩ := writing_bind h
  cases hget
  obtain ⟨_, w₁', hget, h⟩ := writing_bind h
  cases hget
  obtain ⟨⟨offsets, b⟩, w₁', hindexes, h⟩ := writing_bind h
  obtain ⟨hrecords, rfl⟩ := writing_lift hindexes
  cases h
  exact ⟨w₁, offsets, b, hbuild, hrecords, _, rfl, rfl⟩

theorem indexRecords_eq_ok {opts : WriterOptions} {c : ChunkBuilder} {start : Nat}
    {offsets : Dict Nat Nat} {b b' : RecordBuilder}
    (hitems : ∀ i ∈ c.messageIndices.items, i.2.channelId = i.1)
    (h : Writer.indexRecords opts c start b = .ok (offsets, b')) :
    ∃ l : List Written, l.map Written.record =
        (if opts.indexTypes.message then c.messageIndices.items else []).map
          (fun i => .messageIndex i.2) ∧
      b'.buffer = b.buffer ++ allBytes l ∧
      offsets = (∅ : Dict Nat Nat).setAll
        (indexOffsets (indexPlaces (placed (start + b.buffer.length) l))) := by
  unfold Writer.indexRecords at h
  cases hmessage : opts.indexTypes.message with
  | true =>
    rw [hmessage, if_pos rfl] at h
    rw [if_pos rfl]
    exact writeMessageIndexes_eq_ok hitems h
  | false =>
    rw [hmessage, if_neg Bool.false_ne_true] at h
    cases h
    exact ⟨[], rfl, (List.append_nil _).symm, rfl⟩

theorem indexPlaces_records {l : List Written} {indexes : List MessageIndex}
    (h : l.map Written.record = indexes.map .messageIndex) (pos : Nat) :
    (indexPlaces (placed pos l)).map IndexPlace.index = indexes ∧
      ((indexPlaces (placed pos l)).map IndexPlace.length).sum = (allBytes l).length := by
  induction l generalizing pos indexes with
  | nil =>
    cases indexes with
    | nil => exact ⟨rfl, rfl⟩
    | cons index indexes => cases h
  | cons x l ih =>
    cases indexes with
    | nil => cases h
    | cons index indexes =>
      rw [List.map_cons, List.map_cons, List.cons.injEq] at h
      obtain ⟨hindexes, hsum⟩ := ih h.2 (pos + x.size)
      rw [indexPlaces_cons h.1, List.map_cons, List.map_cons, List.sum_cons, hindexes, hsum,
        Written.allBytes_cons, List.length_append]
      exact ⟨rfl, rfl⟩

/-! ## The writer -/

/-- **Records in flight**: in the stream, in the record builder and in the chunk builder. -/
structure Journal where
  flushed : List Written
  pending : List Written
  inner : List Written

/-- The records that the writer was given. -/
def Journal.held (D : Decompressors) (j : Journal) : List McapRecord :=
  contents D (j.flushed.map Written.record) ++ j.pending.map Written.record ++
    j.inner.map Written.record

/-- The chunk builder, if there is one. -/
def Chunking (opts : WriterOptions) (w : Writer) (j : Journal) : Prop :=
  match w.chunkBuilder with
  | none => opts.useChunking = false ∧ j.inner = []
  | some c => opts.useChunking = true ∧ j.pending = [] ∧ Holds c j.inner

/-- **A writer and its records.** -/
structure Laid (opts : WriterOptions) (D : Decompressors) (w : Writer) (j : Journal) : Prop where
  tape : Tape opts w j.flushed j.pending
  indexed : Indexed opts D w j.flushed
  pending : ∀ x ∈ j.pending, x.record.InChunk
  chunking : Chunking opts w j

/-- What a writer keeps of the calls is as it was. -/
structure SameBooks (w w' : Writer) : Prop where
  schemas : w'.schemas = w.schemas
  channels : w'.channels = w.channels
  statistics : ∃ n, w'.statistics = { w.statistics with chunkCount := n }

theorem SameBooks.refl (w : Writer) : SameBooks w w := ⟨rfl, rfl, _, rfl⟩

theorem contents_plain (D : Decompressors) {l : List Written} (h : ∀ x ∈ l, x.record.Plain) :
    contents D (l.map Written.record) = l.map Written.record := by
  induction l with
  | nil => rfl
  | cons x l ih =>
    rw [List.map_cons]
    unfold contents
    rw [List.flatMap_cons, (h x List.mem_cons_self).contentsOf]
    exact congrArg _ (ih fun y hy => h y (List.mem_cons_of_mem _ hy))

section
variable {opts : WriterOptions} {C : Compressors} {D : Decompressors} {w w' : Writer} {j : Journal}
  {c : ChunkBuilder} {inner : List Written} {add : ChunkBuilder → Except PyError ChunkBuilder}

theorem Chunking.congr {j' : Journal} (h : Chunking opts w j)
    (hbuilder : w'.chunkBuilder = w.chunkBuilder) (hinner : j'.inner = j.inner)
    (hpending : w.chunkBuilder ≠ none → j.pending = [] → j'.pending = []) : Chunking opts w' j' := by
  unfold Chunking at h ⊢
  rw [hbuilder]
  cases hc : w.chunkBuilder with
  | none =>
    rw [hc] at h
    exact ⟨h.1, hinner.trans h.2⟩
  | some c =>
    rw [hc] at h hpending
    exact ⟨h.1, hpending nofun h.2.1, hinner ▸ h.2.2⟩

/-- **A flush.** -/
theorem Laid.flush (h : Laid opts D w j) :
    Laid opts D (w.flushed opts) ⟨j.flushed ++ j.pending, [], j.inner⟩ ∧
      Journal.held D ⟨j.flushed ++ j.pending, [], j.inner⟩ = j.held D := by
  have hplain : ∀ x ∈ j.pending, x.record.Plain := fun x hx => (h.pending x hx).plain
  have hindex : ∀ {α : Type} (f : Place → Option α) pos,
      (∀ p ∈ placed pos j.pending, f p = none) → (placed pos j.pending).filterMap f = [] :=
    fun f pos hf => List.filterMap_eq_nil_iff.mpr hf
  refine ⟨⟨h.tape.flush, ?_, fun x hx => absurd hx List.not_mem_nil, ?_⟩, ?_⟩
  · refine h.indexed.append hplain rfl rfl ?_ ?_
    · rw [hindex attachmentIndexOf _ fun p hp => ?_]
      · split <;> exact (List.append_nil _).symm
      · unfold attachmentIndexOf
        rw [(forall_placed (fun x hx => h.pending x hx) p hp).attachment?]
        rfl
    · rw [hindex metadataIndexOf _ fun p hp => ?_]
      · split <;> exact (List.append_nil _).symm
      · unfold metadataIndexOf
        rw [(forall_placed (fun x hx => h.pending x hx) p hp).metadata?]
        rfl
  · exact h.chunking.congr rfl rfl fun _ _ => rfl
  · unfold Journal.held
    rw [List.map_append, contents_append, contents_plain D hplain, List.map_nil, List.append_nil]

theorem getChunkData_chunkOf (hinverse : Inverse C D) (havailable : Available opts C)
    (c : ChunkBuilder) :
    getChunkData D (Writer.chunkOf opts C c) true = .ok c.recordWriter.buffer := by
  obtain ⟨data, hdata⟩ : ∃ data, c.recordWriter.buffer = data := ⟨_, rfl⟩
  have hunpacked : ∀ chunk : Chunk, chunk.uncompressedCrc =
      (if opts.enableCrcs then (crc32 data).toNat else 0) →
      (if true = true ∧ chunk.uncompressedCrc ≠ 0 ∧ (crc32 data).toNat ≠ chunk.uncompressedCrc then
        throw (.crcValidationError chunk.uncompressedCrc (crc32 data).toNat (.chunk chunk))
        else pure data : Except PyError Bytes) = .ok data := by
    intro chunk hcrc
    refine if_neg fun ⟨_, hne, hne'⟩ => ?_
    rw [hcrc] at hne hne'
    cases hcrcs : opts.enableCrcs with
    | true =>
      rw [hcrcs, if_pos rfl] at hne'
      exact hne' rfl
    | false =>
      rw [hcrcs, if_neg Bool.false_ne_true] at hne
      exact hne rfl
  unfold Writer.chunkOf RecordBuilder.finish
  rw [hdata]
  unfold getChunkData compress
  cases hcompression : opts.compression with
  | none => exact hunpacked _ rfl
  | lz4 =>
    obtain ⟨f, hf⟩ := Option.ne_none_iff_exists'.mp (havailable.1 hcompression)
    obtain ⟨g, hg, hinv⟩ := hinverse.lz4 f hf
    rw [hf, hg]
    show ((g (f data)).bind fun data => _) = _
    rw [hinv]
    exact hunpacked _ rfl
  | zstd =>
    obtain ⟨f, hf⟩ := Option.ne_none_iff_exists'.mp (havailable.2 hcompression)
    obtain ⟨g, hg, hinv⟩ := hinverse.zstd f hf
    rw [hf, hg]
    show ((g (f data) data.length).bind fun data => _) = _
    rw [hinv]
    exact hunpacked _ rfl

theorem breakupChunk_chunkOf (hinverse : Inverse C D) (havailable : Available opts C)
    (h : Holds c inner) :
    breakupChunk D (Writer.chunkOf opts C c) true = .ok (inner.map Written.record) := by
  unfold breakupChunk
  rw [getChunkData_chunkOf hinverse havailable, h.buffer]
  exact breakup_allBytes h.inChunk

theorem Holds.items (h : Holds c inner) {i : Nat × MessageIndex} (hi : i ∈ c.messageIndices.items) :
    i.2.channelId = i.1 ∧ i.2.records = entriesOf i.1 (placed 0 inner) ∧
      entriesOf i.1 (placed 0 inner) ≠ [] := by
  obtain ⟨id, index⟩ := i
  have hget := Dict.get?_eq_some.mpr hi
  rw [h.index] at hget
  unfold indexOf at hget
  split at hget
  · cases hget
  · rename_i hne
    cases hget
    exact ⟨rfl, rfl, hne⟩

theorem Holds.mem_keys (h : Holds c inner) (id : Nat) :
    id ∈ c.messageIndices.keys ↔ entriesOf id (placed 0 inner) ≠ [] := by
  rw [← not_iff_not, ← Dict.get?_eq_none, h.index]
  unfold indexOf
  split
  · rename_i hnil
    exact ⟨fun _ h => h hnil, fun _ => rfl⟩
  · rename_i hne
    exact ⟨by rintro ⟨⟩, fun h => absurd hne h⟩

/-- **A chunk with its indexes is sound.** -/
theorem Holds.sound (hinverse : Inverse C D) (havailable : Available opts C) {l : List Written}
    (h : Holds c inner)
    (hl : l.map Written.record = (if opts.indexTypes.message then c.messageIndices.items else []).map
      (fun i => .messageIndex i.2)) (offset length pos : Nat) :
    Group.Sound D opts.indexTypes.message
      ⟨offset, length, Writer.chunkOf opts C c, indexPlaces (placed pos l)⟩ (allBytes inner) := by
  have hindexes : (indexPlaces (placed pos l)).map IndexPlace.index =
      (if opts.indexTypes.message then c.messageIndices.items else []).map Prod.snd :=
    (indexPlaces_records (by rw [hl, List.map_map]; rfl) pos).1
  have hmem : ∀ {index : MessageIndex}, (∃ i ∈ indexPlaces (placed pos l), i.index = index) ↔
      opts.indexTypes.message = true ∧ ∃ i ∈ c.messageIndices.items, i.2 = index := by
    intro index
    have hiff : index ∈ (indexPlaces (placed pos l)).map IndexPlace.index ↔
        index ∈ (if opts.indexTypes.message then c.messageIndices.items else []).map Prod.snd := by
      rw [hindexes]
    rw [List.mem_map, List.mem_map] at hiff
    rw [hiff]
    split
    · rename_i hmessage
      exact (and_iff_right hmessage).symm
    · rename_i hmessage
      exact ⟨fun ⟨i, hi, _⟩ => absurd hi List.not_mem_nil, fun h => absurd h.1 hmessage⟩
  constructor
  · show getChunkData D (Writer.chunkOf opts C c) true = _
    rw [getChunkData_chunkOf hinverse havailable, h.buffer]
  · show c.recordWriter.buffer.length = _
    rw [h.buffer]
  · rw [Written.locatedIn_allBytes, Written.map_record_placed]
    exact h.startTime
  · rw [Written.locatedIn_allBytes, Written.map_record_placed]
    exact h.endTime
  · have hids : (indexPlaces (placed pos l)).map (fun i => i.index.channelId) =
        (if opts.indexTypes.message then c.messageIndices.items else []).map Prod.fst := by
      rw [show (fun i : IndexPlace => i.index.channelId) =
        MessageIndex.channelId ∘ IndexPlace.index from rfl, ← List.map_map, hindexes, List.map_map]
      refine List.map_congr_left fun i hi => ?_
      split at hi
      · exact (h.items hi).1
      · cases hi
    show ((indexPlaces (placed pos l)).map fun i => i.index.channelId).Nodup
    rw [hids]
    split
    · exact c.messageIndices.nodup
    · exact List.nodup_nil
  · intro i hi
    obtain ⟨-, i', hi', heq⟩ := hmem.mp ⟨i, hi, rfl⟩
    obtain ⟨hid, hrecords, -⟩ := h.items hi'
    rw [Written.locatedIn_allBytes, ← heq, hid, hrecords]
  · intro id
    rw [Written.locatedIn_allBytes, ← h.mem_keys]
    constructor
    · rintro ⟨i, hi, rfl⟩
      obtain ⟨hmessage, i', hi', heq⟩ := hmem.mp ⟨i, hi, rfl⟩
      refine ⟨hmessage, ?_⟩
      rw [← heq, (h.items hi').1]
      exact List.mem_map_of_mem hi'
    · rintro ⟨hmessage, hkey⟩
      obtain ⟨i, hi, rfl⟩ := List.mem_map.mp hkey
      obtain ⟨i', hi', heq⟩ := hmem.mpr ⟨hmessage, i, hi, rfl⟩
      exact ⟨i', hi', by rw [heq, (h.items hi).1]⟩

theorem groups_chunk {head : Written} {chunk : Chunk} {l : List Written}
    {indexes : List MessageIndex} (hhead : head.record = .chunk chunk)
    (hl : l.map Written.record = indexes.map .messageIndex) (pos : Nat) :
    groups (placed pos (head :: l)) =
      [⟨pos, head.size, chunk, indexPlaces (placed (pos + head.size) l)⟩] ∧
    indexPlaces (placed pos (head :: l)) = [] := by
  have hchunks : ∀ x ∈ l, x.record.chunk? = none := by
    intro x hx
    have hmem := List.mem_map_of_mem (f := Written.record) hx
    rw [hl] at hmem
    obtain ⟨index, -, heq⟩ := List.mem_map.mp hmem
    rw [← heq]
    rfl
  have hnil : groups (placed (pos + head.size) l) = [] :=
    groups_eq_nil (forall_placed (P := fun r => r.chunk? = none) hchunks)
  constructor
  · rw [Written.placed_cons, groups, hnil]
    simp only [hhead]
    rfl
  · rw [Written.placed_cons, indexPlaces]
    simp only [hhead]
    rfl

/-- **A chunk is closed.** -/
theorem Laid.close (hinverse : Inverse C D) (havailable : Available opts C) {flushed : List Written}
    (h : Laid opts D w ⟨flushed, [], inner⟩) (hc : Holds c inner)
    (hchunking : opts.useChunking = true) (hrun : Writer.closeChunk opts C c w = .ok ((), w')) :
    ∃ l, Laid opts D w' ⟨flushed ++ l, [], []⟩ ∧
      Journal.held D ⟨flushed ++ l, [], []⟩ = Journal.held D ⟨flushed, [], inner⟩ ∧
      SameBooks w w' ∧ w'.chunkBuilder = some c.reset := by
  obtain ⟨w₁, offsets, b, hbuild, hindexes, w₂, rfl, rfl⟩ := closeChunk_eq_ok hrun
  -- the stream, one flush after the other
  have htape₀ := ((h.tape.congr rfl rfl rfl : Tape opts { w with
    statistics := { w.statistics with chunkCount := w.statistics.chunkCount + 1 } } _ _)).flush
  rw [List.append_nil] at htape₀
  obtain ⟨head, hhead, hsize, htape₁, b₁, rfl⟩ := htape₀.record (.chunk _) hbuild
  obtain ⟨l, hl, hbuffer, hoffsets⟩ := indexRecords_eq_ok (fun i hi => (hc.items hi).1) hindexes
  have htape₂ := htape₁.records hbuffer
  rw [List.append_assoc, List.singleton_append] at htape₂
  -- the places of the records
  obtain ⟨pos, hpos⟩ : ∃ pos, (MAGIC ++ allBytes flushed).length = pos := ⟨_, rfl⟩
  have hstart : (w.flushed opts).stream.length = pos := by
    show (w.stream ++ w.recordBuilder.buffer).length = _
    rw [h.tape.stream, h.tape.buffer, ← hpos]
    simp
  have hindexStart := congrArg List.length htape₁.stream
  rw [Written.allBytes_append, ← List.append_assoc, List.length_append, hpos, Written.allBytes_cons,
    Written.allBytes_nil, List.append_nil] at hindexStart
  rw [htape₁.buffer, hindexStart, Written.allBytes_nil, List.length_nil, Nat.add_zero] at hoffsets
  have hindexes' : l.map Written.record =
      ((if opts.indexTypes.message then c.messageIndices.items else []).map Prod.snd).map
        .messageIndex := by
    rw [hl, List.map_map]
    rfl
  obtain ⟨hindex, hsum⟩ := indexPlaces_records hindexes' (pos + head.size)
  obtain ⟨hgroup, hnil⟩ := groups_chunk hhead hindexes' pos
  have hgroups : groups (placed 8 (flushed ++ head :: l)) = groups (placed 8 flushed) ++
      [⟨pos, head.size, Writer.chunkOf opts C c, indexPlaces (placed (pos + head.size) l)⟩] := by
    rw [placed_behind, hpos, groups_append hnil, hgroup]
  have hchunk := breakupChunk_chunkOf hinverse havailable hc
  have hnone : ∀ {α : Type} (f : Place → Option α),
      (∀ o n c, f ⟨o, n, .chunk c⟩ = none) → (∀ o n i, f ⟨o, n, .messageIndex i⟩ = none) →
      (placed (MAGIC ++ allBytes flushed).length (head :: l)).filterMap f = [] := by
    intro α f hfchunk hfindex
    refine List.filterMap_eq_nil_iff.mpr fun p hp => ?_
    obtain ⟨⟨q, x⟩, hx, rfl⟩ := List.mem_map.mp hp
    unfold Written.place
    rcases List.mem_cons.mp (snd_of_mem_positions _ hx) with rfl | hx
    · rw [hhead]
      exact hfchunk _ _ _
    · have hmem := List.mem_map_of_mem (f := Written.record) hx
      rw [hindexes'] at hmem
      obtain ⟨index, -, heq⟩ := List.mem_map.mp hmem
      simp only
      rw [← heq]
      exact hfindex _ _ _
  refine ⟨head :: l, ⟨?_, ?_, fun x hx => absurd hx List.not_mem_nil, ?_⟩, ?_, ?_, rfl⟩
  · exact htape₂.congr rfl rfl rfl
  · constructor
    · intro x hx
      rcases List.mem_append.mp hx with hx | hx
      · exact h.indexed.inData x hx
      · rcases List.mem_cons.mp hx with rfl | hx
        · rw [hhead]
          refine ⟨_, hchunk, fun r hr => ?_⟩
          obtain ⟨y, hy, rfl⟩ := List.mem_map.mp hr
          exact hc.inChunk y hy
        · have hmem := List.mem_map_of_mem (f := Written.record) hx
          rw [hindexes'] at hmem
          obtain ⟨index, -, heq⟩ := List.mem_map.mp hmem
          rw [← heq]
          trivial
    · rw [hgroups, List.map_append, ← h.indexed.chunkIndices, hoffsets]
      have hlength : b.count = (allBytes l).length := by
        show b.buffer.length = _
        rw [hbuffer, htape₁.buffer]
        rfl
      refine congrArg (fun i => w.chunkIndices ++ [i]) ?_
      unfold Group.chunkIndex
      rw [hsize, hlength, hstart, hsum]
      rfl
    · rw [hgroups]
      intro g hg
      rcases List.mem_append.mp hg with hg | hg
      · exact h.indexed.sound g hg
      · rw [List.mem_singleton.mp hg]
        exact ⟨_, hc.sound hinverse havailable hl _ _ _⟩
    · rw [hgroups, List.map_append, List.filterMap_append, h.indexed.messageIndexes,
        List.flatMap_append, List.map_cons, List.filterMap_cons_none (by rw [hhead]; rfl), hindexes',
        List.flatMap_cons, List.flatMap_nil, List.append_nil, hindex, List.filterMap_map]
      refine congrArg _ ?_
      exact (List.filterMap_congr fun _ _ => rfl).trans List.filterMap_some
    · rw [placed_behind, List.filterMap_append,
        hnone attachmentIndexOf (fun _ _ _ => rfl) (fun _ _ _ => rfl), List.append_nil]
      exact h.indexed.attachmentIndexes
    · rw [placed_behind, List.filterMap_append,
        hnone metadataIndexOf (fun _ _ _ => rfl) (fun _ _ _ => rfl), List.append_nil]
      exact h.indexed.metadataIndexes
    · rw [hgroups, List.length_append]
      exact congrArg (· + 1) h.indexed.chunkCount
  · exact ⟨hchunking, rfl, holds_reset c⟩
  · unfold Journal.held
    have hcontents : contents D ((head :: l).map Written.record) = inner.map Written.record := by
      have hnil : contents D (l.map Written.record) = [] := by
        rw [hindexes']
        refine List.flatMap_eq_nil_iff.mpr fun r hr => ?_
        obtain ⟨index, -, rfl⟩ := List.mem_map.mp hr
        rfl
      rw [List.map_cons, hhead]
      unfold contents at hnil ⊢
      rw [List.flatMap_cons, hnil, List.append_nil]
      show (breakupChunk D (Writer.chunkOf opts C c) true).toOption.getD [] = _
      rw [hchunk]
      rfl
    rw [List.map_append, contents_append, hcontents]
    simp
  · exact ⟨rfl, rfl, _, rfl⟩

theorem Laid.chunkBuilder_eq_none (h : Laid opts D w j) (hnone : w.chunkBuilder = none) :
    opts.useChunking = false ∧ j.inner = [] := by
  have hchunking := h.chunking
  unfold Chunking at hchunking
  rw [hnone] at hchunking
  exact hchunking

theorem Laid.chunkBuilder_eq_some (h : Laid opts D w j) (hsome : w.chunkBuilder = some c) :
    opts.useChunking = true ∧ j.pending = [] ∧ Holds c j.inner := by
  have hchunking := h.chunking
  unfold Chunking at hchunking
  rw [hsome] at hchunking
  exact hchunking

/-- What is behind a method that does not touch the calls. -/
structure Onward (opts : WriterOptions) (D : Decompressors) (w w' : Writer) (j j' : Journal) : Prop where
  laid : Laid opts D w' j'
  held : j'.held D = j.held D
  books : SameBooks w w'

theorem Laid.stay (h : Laid opts D w j) : Onward opts D w w j j := ⟨h, rfl, .refl w⟩

/-- **A chunk is closed if it has messages.** -/
theorem Laid.finalizeChunk (hinverse : Inverse C D) (havailable : Available opts C)
    (h : Laid opts D w j) (hrun : Writer.finalizeChunk opts C w = .ok ((), w')) :
    ∃ j', Onward opts D w w' j j' ∧ logTimes (j'.inner.map Written.record) = [] ∧
      ((∃ c, w.chunkBuilder = some c ∧ c.numMessages ≠ 0 ∧ j'.inner = [] ∧ j'.pending = []) ∨
        (w' = w ∧ j' = j ∧ ∀ c, w.chunkBuilder = some c → c.numMessages = 0)) := by
  obtain ⟨_, w₁, hget, hrun⟩ := writing_bind hrun
  cases hget
  rcases hbuilder : w.chunkBuilder with _ | c
  · rw [hbuilder] at hrun
    cases hrun
    obtain ⟨-, hinner⟩ := h.chunkBuilder_eq_none hbuilder
    exact ⟨j, h.stay, by rw [hinner]; rfl, .inr ⟨rfl, rfl, fun c hc => by cases hc⟩⟩
  · rw [hbuilder] at hrun
    obtain ⟨hchunking, hpending, hc⟩ := h.chunkBuilder_eq_some hbuilder
    change (if c.numMessages = 0 then pure () else Writer.closeChunk opts C c : Writing Unit) w = _
      at hrun
    by_cases hzero : c.numMessages = 0
    · rw [if_pos hzero] at hrun
      cases hrun
      refine ⟨j, h.stay, List.eq_nil_of_length_eq_zero (hc.numMessages ▸ hzero),
        .inr ⟨rfl, rfl, fun c' hc' => ?_⟩⟩
      cases hc'
      exact hzero
    · rw [if_neg hzero] at hrun
      obtain ⟨flushed, pending, inner⟩ := j
      cases hpending
      obtain ⟨l, hlaid, hheld, hbooks, -⟩ := h.close hinverse havailable hc hchunking hrun
      exact ⟨_, ⟨hlaid, hheld, hbooks⟩, rfl, .inl ⟨c, rfl, hzero, rfl, rfl⟩⟩

theorem Laid.maybeFinalizeChunk (hinverse : Inverse C D) (havailable : Available opts C)
    (h : Laid opts D w j) (hrun : Writer.maybeFinalizeChunk opts C w = .ok ((), w')) :
    ∃ j', Onward opts D w w' j j' := by
  obtain ⟨_, w₁, hget, hrun⟩ := writing_bind hrun
  cases hget
  rcases hbuilder : w.chunkBuilder with _ | c
  · rw [hbuilder] at hrun
    cases hrun
    exact ⟨j, h.stay⟩
  · rw [hbuilder] at hrun
    change (if opts.chunkSize < c.count then Writer.finalizeChunk opts C else pure () :
      Writing Unit) w = _ at hrun
    split at hrun
    · obtain ⟨j', honward, -⟩ := h.finalizeChunk hinverse havailable hrun
      exact ⟨j', honward⟩
    · cases hrun
      exact ⟨j, h.stay⟩

/-- **A record that was placed** is held behind the others. -/
structure Places (opts : WriterOptions) (D : Decompressors) (record : McapRecord) (w w' : Writer)
    (j j' : Journal) : Prop where
  laid : Laid opts D w' j'
  held : j'.held D = j.held D ++ [record]
  books : SameBooks w w'

/-- A record is added to a chunk. -/
def Adds (add : ChunkBuilder → Except PyError ChunkBuilder) (record : McapRecord) : Prop :=
  ∀ c c' inner, Holds c inner → add c = .ok c' →
    ∃ x : Written, x.record = record ∧ Holds c' (inner ++ [x])

theorem adds_quiet (record : McapRecord) (hin : record.InChunk) (hquiet : record.message? = none)
    (hadd : ∀ c, add c = (record.write c.recordWriter).bind fun x =>
      .ok { c with recordWriter := x.2 }) : Adds add record := by
  intro c c' inner hc hrun
  rw [hadd] at hrun
  obtain ⟨⟨⟨⟩, b⟩, hwrite, hrun⟩ := Mcap.bind_eq_ok hrun
  cases hrun
  obtain ⟨x, rfl, hb, -⟩ := write_eq_ok _ hwrite
  exact ⟨x, rfl, hc.quiet hin hquiet hb⟩

theorem adds_message (m : Message) : Adds (·.addMessage m) (.message m) := by
  intro c c' inner hc hrun
  obtain ⟨⟨⟨⟩, b⟩, hwrite, hrun⟩ := Mcap.bind_eq_ok hrun
  cases hrun
  obtain ⟨x, hx, hb, -⟩ := write_eq_ok (.message m) hwrite
  exact ⟨x, hx, hc.message hx hb⟩

/-- **A record is placed** in the chunk builder, if there is one, and otherwise written. -/
theorem Laid.place (hinverse : Inverse C D) (havailable : Available opts C) (h : Laid opts D w j)
    {record : McapRecord} {write : Writing Unit} (hadd : Adds add record)
    (hwrite : w.chunkBuilder = none → write w = .ok ((), w') →
      ∃ j', Places opts D record w w' j j')
    (hrun : Writer.place opts C add write w = .ok ((), w')) :
    ∃ j', Places opts D record w w' j j' := by
  obtain ⟨_, w₁, hget, hrun⟩ := writing_bind hrun
  cases hget
  rcases hbuilder : w.chunkBuilder with _ | c
  · rw [hbuilder] at hrun
    exact hwrite hbuilder hrun
  · rw [hbuilder] at hrun
    obtain ⟨hchunking, hpending, hc⟩ := h.chunkBuilder_eq_some hbuilder
    change ((liftM (add c) : Writing ChunkBuilder) >>= fun c' =>
      (modify (fun w => { w with chunkBuilder := some c' }) >>= fun _ =>
        Writer.maybeFinalizeChunk opts C : Writing Unit)) w = _ at hrun
    obtain ⟨c', w₁, hlift, hmore⟩ := writing_bind hrun
    obtain ⟨hadded, rfl⟩ := writing_lift hlift
    obtain ⟨x, rfl, hc'⟩ := hadd c c' j.inner hc hadded
    obtain ⟨_, w₂, hset, hmaybe⟩ := writing_bind hmore
    cases hset
    have hlaid : Laid opts D { w₁ with chunkBuilder := some c' }
        ⟨j.flushed, j.pending, j.inner ++ [x]⟩ :=
      ⟨h.tape.congr rfl rfl rfl, ⟨h.indexed.inData, h.indexed.chunkIndices, h.indexed.sound,
        h.indexed.messageIndexes, h.indexed.attachmentIndexes, h.indexed.metadataIndexes,
        h.indexed.chunkCount⟩, h.pending, ⟨hchunking, hpending, hc'⟩⟩
    obtain ⟨j', hlaid', hheld, hbooks⟩ := hlaid.maybeFinalizeChunk hinverse havailable hmaybe
    refine ⟨j', hlaid', ?_, ⟨hbooks.schemas, hbooks.channels, hbooks.statistics⟩⟩
    rw [hheld]
    unfold Journal.held
    rw [List.map_append, ← List.append_assoc]
    rfl

end

end Py
end Mcap

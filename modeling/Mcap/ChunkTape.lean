import Mcap.Tape

/-! # A chunk from its first record to its last byte

A `ChunkContents` is a chunk writer without the stream under it, and `ChunkWriter.placed` puts
it on a stream that never fails, in place or in a buffer.  The calls on a placed writer are
equations over its state: `new` gives a writer that has just been opened, `write_record` and
`write_message` send a record through the compressor, and `finish` leaves the stream with the
record of the chunk and those of its message indexes behind what it held (`finish_placed`).

As long as no call fails, the state is that of the records: `ChunkWriter.holding`.  The
header of the chunk, its message indexes and the entry for the summary are then functions of
the records: `chunkHeader`, `indexRecords` and `chunkIndex`.
-/
namespace Mcap

/-! ## What is written for a record -/

theorem frame_eq (opcode : UInt8) (body : Bytes) :
    frame opcode body = opAndLen opcode body.length ++ body := rfl

/-- **`write_record` writes the record**: the opcode, the length of the body, and the
body. -/
theorem Record.written_eq_some {r : Record} {b : Bytes} (h : r.written = some b) : b = r.frame := by
  cases r with
  | schema x data =>
    cases h
    simp [Record.frame, Record.opcode, Record.body, frame_eq, Nat.add_assoc, List.append_assoc]
  | message x data =>
    cases h
    have hlen : x.bytes.length = 22 := by simp [MessageHeader.bytes]
    simp [Record.frame, Record.opcode, Record.body, frame_eq, MessageHeader.serializedLen, hlen,
      List.append_assoc]
  | footer x => cases h
  | chunk x data => cases h
  | messageIndex x => cases h
  | attachment x data crc => cases h
  | _ =>
    cases h
    rfl

/-- The records one after the other. -/
def content (records : List Record) : Bytes := records.flatMap Record.frame

@[simp] theorem content_nil : content [] = [] := rfl

theorem content_append (rs rs' : List Record) : content (rs ++ rs') = content rs ++ content rs' :=
  List.flatMap_append

theorem content_singleton (r : Record) : content [r] = r.frame := by simp [content]

/-! ## What a chunk tells of its records -/

/-- The time bounds of messages, with one more record. -/
def boundsStep (bounds : Option (UInt64 × UInt64)) : Record → Option (UInt64 × UInt64)
  | .message header _ => some (extendBounds bounds header.logTime)
  | _ => bounds

/-- The time bounds of the messages among the records. -/
def timeBounds (records : List Record) : Option (UInt64 × UInt64) := records.foldl boundsStep none

/-- The indexes of the messages by channel and the offset of the next record, with one
more record. -/
def indexStep (acc : BTreeMap UInt16 (List MessageIndexEntry) × Nat) (r : Record) :
    BTreeMap UInt16 (List MessageIndexEntry) × Nat :=
  (match r with
    | .message header _ =>
        acc.1.insert header.channelId
          (acc.1.getD header.channelId [] ++ [⟨header.logTime, .ofNat acc.2⟩])
    | _ => acc.1,
   acc.2 + r.frame.length)

/-- The indexes of the messages among the records, by channel. -/
def channelIndexes (records : List Record) : BTreeMap UInt16 (List MessageIndexEntry) :=
  (records.foldl indexStep (∅, 0)).1

theorem foldl_indexStep_snd (records : List Record)
    (acc : BTreeMap UInt16 (List MessageIndexEntry) × Nat) :
    (records.foldl indexStep acc).2 = acc.2 + (content records).length := by
  induction records generalizing acc with
  | nil => rfl
  | cons r rs ih =>
    rw [List.foldl_cons, ih]
    simp only [indexStep, content, List.flatMap_cons, List.length_append, Nat.add_assoc]

theorem timeBounds_append (records : List Record) (r : Record) :
    timeBounds (records ++ [r]) = boundsStep (timeBounds records) r := by
  rw [timeBounds, List.foldl_append]
  rfl

theorem channelIndexes_append (records : List Record) (r : Record) :
    channelIndexes (records ++ [r]) =
      (indexStep (channelIndexes records, (content records).length) r).1 := by
  have hsnd := foldl_indexStep_snd records (∅, 0)
  rw [Nat.zero_add] at hsnd
  rw [channelIndexes, List.foldl_append, ← hsnd]
  rfl

section
variable (o : WriteOptions)

/-- The header of a chunk whose records are compressed to `out`. -/
def chunkHeader (records : List Record) (out : Bytes) : ChunkHeader where
  messageStartTime := ((timeBounds records).getD (0, 0)).1
  messageEndTime := ((timeBounds records).getD (0, 0)).2
  uncompressedSize := .ofNat (content records).length
  uncompressedCrc := if o.calculateChunkCrcs then crc32 (content records) else 0
  compression := compressionName o.compression
  compressedSize := .ofNat out.length

/-- The record of a chunk. -/
def closedChunk (records : List Record) (out : Bytes) : Record :=
  .chunk (chunkHeader o records out) out

/-- The message indexes of a chunk, by channel. -/
def writtenIndexes (records : List Record) : BTreeMap UInt16 (List MessageIndexEntry) :=
  if o.emitMessageIndexes then channelIndexes records else ∅

/-- The record of a message index. -/
def indexRecord (e : UInt16 × List MessageIndexEntry) : Record :=
  .messageIndex { channelId := e.1, records := e.2 }

/-- The message index records of a chunk. -/
def indexRecords (records : List Record) : List Record :=
  (writtenIndexes o records).toList.map indexRecord

/-- The channels of the message indexes, with the positions of their records if the first
is at `pos`. -/
def indexOffsets : Nat → List (UInt16 × List MessageIndexEntry) → List (UInt16 × UInt64)
  | _, [] => []
  | pos, e :: es => (e.1, .ofNat pos) :: indexOffsets (pos + (indexRecord e).frame.length) es

/-- The index of a chunk that is written at `pos`. -/
def chunkIndex (pos : Nat) (records : List Record) (out : Bytes) : ChunkIndex where
  messageStartTime := (chunkHeader o records out).messageStartTime
  messageEndTime := (chunkHeader o records out).messageEndTime
  chunkStartOffset := .ofNat pos
  chunkLength := .ofNat (closedChunk o records out).frame.length
  messageIndexOffsets := BTreeMap.insertAll ∅ (indexOffsets
    (pos + (closedChunk o records out).frame.length) (writtenIndexes o records).toList)
  messageIndexLength := .ofNat (content (indexRecords o records)).length
  compression := (chunkHeader o records out).compression
  compressedSize := (chunkHeader o records out).compressedSize
  uncompressedSize := (chunkHeader o records out).uncompressedSize

end

/-! ## Chunk writers -/

/-- **A chunk writer without the stream under it**: what it has noted of its messages, what
has gone into its compressor and what has come out. -/
structure ChunkContents (σ : Type) where
  messageBounds : Option (UInt64 × UInt64)
  indexes : BTreeMap UInt16 (List MessageIndexEntry)
  hasher : Option Hasher
  count : Nat
  coder : Coder σ
  out : Bytes
  preChunkCrc : Option Hasher

namespace ChunkContents
variable {σ : Type} (o : WriteOptions) (s : ChunkContents σ)

/-- The header of the chunk, if its compressed data is `out`. -/
def header (out : Bytes) : ChunkHeader where
  messageStartTime := (s.messageBounds.getD (0, 0)).1
  messageEndTime := (s.messageBounds.getD (0, 0)).2
  uncompressedSize := .ofNat s.count
  uncompressedCrc := (s.hasher.map Hasher.finalize).getD 0
  compression := compressionName o.compression
  compressedSize := .ofNat out.length

/-- The record of the chunk. -/
def chunk (out : Bytes) : Record := .chunk (s.header o out) out

/-- The records of its message indexes. -/
def indexRecords : List Record := s.indexes.toList.map indexRecord

/-- The index of the chunk, if it is written at `pos`. -/
def index (pos : Nat) (out : Bytes) : ChunkIndex where
  messageStartTime := (s.header o out).messageStartTime
  messageEndTime := (s.header o out).messageEndTime
  chunkStartOffset := .ofNat pos
  chunkLength := .ofNat (s.chunk o out).frame.length
  messageIndexOffsets := BTreeMap.insertAll ∅ (indexOffsets
    (pos + (s.chunk o out).frame.length) s.indexes.toList)
  messageIndexLength := .ofNat (content s.indexRecords).length
  compression := (s.header o out).compression
  compressedSize := (s.header o out).compressedSize
  uncompressedSize := (s.header o out).uncompressedSize

/-- The hasher of the stream once the header and the compressed data have been written. -/
def hasherAfter (out : Bytes) : Option Hasher :=
  ChunkWriter.joinHashers
    (s.preChunkCrc.map (·.update (opAndLen op.CHUNK (s.chunk o out).body.length ++
      (s.header o out).bytes)))
    (if o.calculateChunkCrcs then some ⟨out⟩ else none)

/-- The stream once the chunk is finished. -/
def closed (base out : Bytes) : CountingCrcWriter Stream :=
  (CountingCrcWriter.withHasher (Stream.tape (base ++ (s.chunk o out).frame))
    (s.hasherAfter o out)).push (base ++ (s.chunk o out).frame) (content s.indexRecords)

/-- A message is noted. -/
def indexMessage (header : MessageHeader) : ChunkContents σ :=
  { s with
    messageBounds := some (extendBounds s.messageBounds header.logTime)
    indexes :=
      if o.emitMessageIndexes then
        s.indexes.insert header.channelId
          (s.indexes.getD header.channelId [] ++ [⟨header.logTime, .ofNat s.count⟩])
      else s.indexes }

/-- A record goes through the compressor. -/
def push [Encoders σ] (r : Record) : Except (IoError × ChunkContents σ) (ChunkContents σ) :=
  match s.coder.push r.frame with
  | .ok (coder, x) =>
      .ok
        { s with
          coder
          out := s.out ++ x
          hasher := s.hasher.map (·.update r.frame)
          count := s.count + r.frame.length }
  | .error (e, coder) => .error (e, { s with coder })

/-- A chunk writer that has just been opened. -/
def start (coder : Coder σ) (out : Bytes) (pre : Option Hasher) : ChunkContents σ where
  messageBounds := none
  indexes := ∅
  hasher := if o.calculateChunkCrcs then some Hasher.new else none
  count := 0
  coder
  out
  preChunkCrc := pre

end ChunkContents

namespace ChunkWriter
variable {σ : Type}

/-- The opcode, the length and the header a chunk starts with. -/
def dummy (o : WriteOptions) : Bytes :=
  opAndLen op.CHUNK (2 ^ 64 - 1) ++ (dummyHeader o.compression).bytes

/-- **The chunk writer** over a stream that held `base`. -/
def placed (o : WriteOptions) (buffered : Bool) (base : Bytes) (s : ChunkContents σ) :
    ChunkWriter σ Stream where
  chunkOffset := base.length
  headerStart := ChunkSink.origin buffered base
  dataStart := ChunkSink.origin buffered base + (dummy o).length
  messageBounds := s.messageBounds
  compressionName := Mcap.compressionName o.compression
  compressor :=
    { inner := s.coder.onto
        { inner := ChunkSink.held buffered base (dummy o ++ s.out)
          hasher := if o.calculateChunkCrcs then some ⟨s.out⟩ else none
          count := s.out.length }
      hasher := s.hasher
      count := s.count }
  indexes := s.indexes
  preChunkCrc := s.preChunkCrc
  emitMessageIndexes := o.emitMessageIndexes

section
variable {o : WriteOptions} {buffered : Bool} {base : Bytes} {s s' : ChunkContents σ} {x : Bytes}
  {e : IoError}

theorem writeAll_sink (crcs : Bool) (chunk out b : Bytes) :
    writeAll ({ inner := ChunkSink.held buffered base (chunk ++ out)
                hasher := if crcs then some ⟨out⟩ else none
                count := out.length } : CountingCrcWriter (ChunkSink Stream)) b =
      .ok { inner := ChunkSink.held buffered base (chunk ++ (out ++ b))
            hasher := if crcs then some ⟨out ++ b⟩ else none
            count := (out ++ b).length } := by
  rw [CountingCrcWriter.writeAll_ok (ChunkSink.writeAll_held b), CountingCrcWriter.account]
  cases crcs <;> simp [Hasher.update, List.append_assoc]

variable [Encoders σ] {c : CountingCrcWriter Stream}

/-! ### Opening -/

theorem new_eq (hc : c.OnTape base) (mode : ChunkMode) :
    (new c o.compression mode o.emitMessageIndexes o.calculateChunkCrcs o.compressionLevel
      o.compressionThreads : Res McapError (ChunkWriter σ Stream)) =
    (newCompressor (CountingCrcWriter.new
        (ChunkSink.held (ChunkSink.isBuffered mode) base (dummy o)) o.calculateChunkCrcs)
        o.compression o.compressionLevel o.compressionThreads >>= fun compressor =>
      .ok
        { chunkOffset := base.length
          headerStart := ChunkSink.origin (ChunkSink.isBuffered mode) base
          dataStart := ChunkSink.origin (ChunkSink.isBuffered mode) base + (dummy o).length
          messageBounds := none
          compressionName := Mcap.compressionName o.compression
          compressor := CountingCrcWriter.new compressor o.calculateChunkCrcs
          indexes := ∅
          preChunkCrc := c.hasher
          emitMessageIndexes := o.emitMessageIndexes }) := by
  have hstart : streamPosition (ChunkSink.new c.inner mode) =
      .ok (ChunkSink.origin (ChunkSink.isBuffered mode) base,
        ChunkSink.held (ChunkSink.isBuffered mode) base []) := by
    rw [hc, ChunkSink.new_tape, ChunkSink.held, ChunkSink.streamPosition_heldAt]
    rfl
  have hdata : streamPosition (ChunkSink.held (ChunkSink.isBuffered mode) base (dummy o)) =
      .ok (ChunkSink.origin (ChunkSink.isBuffered mode) base + (dummy o).length,
        ChunkSink.held (ChunkSink.isBuffered mode) base (dummy o)) :=
    ChunkSink.streamPosition_heldAt
  unfold new
  rw [position_of_streamPosition hc.streamPosition]
  simp only [dropWriter, Res.ok_bind, position_of_streamPosition hstart]
  rw [write_of_writeAll (ChunkSink.writeAll_held _)]
  simp only [Res.ok_bind, List.nil_append]
  rw [write_of_writeAll (ChunkSink.writeAll_held _)]
  simp only [Res.ok_bind]
  rw [← dummy, position_of_streamPosition hdata]
  rfl

/-- **A new chunk writer is placed** where the stream ends. -/
theorem new_placed (hc : c.OnTape base) (mode : ChunkMode) {coder : Coder σ} {out : Bytes}
    (h : Coder.start o.compression o.compressionLevel o.compressionThreads = .ok (coder, out)) :
    new c o.compression mode o.emitMessageIndexes o.calculateChunkCrcs o.compressionLevel
      o.compressionThreads =
        .ok (placed o (ChunkSink.isBuffered mode) base (.start o coder out c.hasher)) := by
  have hsink : ∀ b, writeAll (CountingCrcWriter.new
      (ChunkSink.held (ChunkSink.isBuffered mode) base (dummy o)) o.calculateChunkCrcs) b =
      .ok ⟨ChunkSink.held (ChunkSink.isBuffered mode) base (dummy o ++ b),
        if o.calculateChunkCrcs then some ⟨b⟩ else none, b.length⟩ := by
    intro b
    have hw := @writeAll_sink (ChunkSink.isBuffered mode) base o.calculateChunkCrcs (dummy o) [] b
    simp only [List.append_nil, List.nil_append, List.length_nil] at hw
    exact hw
  have hnil := hsink []
  rw [List.append_nil] at hnil
  rw [new_eq hc, Coder.newCompressor_onto h (hsink out) hnil, Res.ok_bind]
  rfl

theorem new_error (hc : c.OnTape base) (mode : ChunkMode)
    (h : (Coder.start o.compression o.compressionLevel o.compressionThreads :
      Except IoError (Coder σ × Bytes)) = .error e) :
    (new c o.compression mode o.emitMessageIndexes o.calculateChunkCrcs o.compressionLevel
      o.compressionThreads : Res McapError (ChunkWriter σ Stream)) = .err (.io e) := by
  rw [new_eq hc, Coder.newCompressor_error h, Res.err_bind]

/-! ### Records -/

/-- **A record goes through the compressor.** -/
theorem writeRecord_placed {r : Record} (hr : r.written = some r.frame) :
    (placed o buffered base s).writeRecord r =
      match s.push r with
      | .ok s' => .ok (placed o buffered base s')
      | .error (e, s') => .err (.io e, placed o buffered base s') := by
  unfold ChunkContents.push
  cases h : s.coder.push r.frame with
  | ok res =>
    obtain ⟨coder, x⟩ := res
    have hw := CountingCrcWriter.writeAll_ok (c := (placed o buffered base s).compressor)
      (Coder.writeAll_onto h (writeAll_sink o.calculateChunkCrcs (dummy o) s.out x))
    rw [writeRecord, writeRecord_of_writeAll hr hw]
    rfl
  | error res =>
    obtain ⟨e, coder⟩ := res
    have hw : writeAll (placed o buffered base s).compressor r.frame =
        .error (⟨0, e⟩, (placed o buffered base { s with coder }).compressor) := by
      rw [CountingCrcWriter.writeAll_eq]
      simp only [placed, Coder.writeAll_onto_error h, List.take_zero]
      rw [CountingCrcWriter.account]
      congr 3
      cases s.hasher <;> simp
    rw [writeRecord, Mcap.writeRecord, hr]
    simp only [write, hw]
    rfl

/-- **A message** also goes into the time bounds and the index of its channel. -/
theorem writeMessage_placed (header : MessageHeader) (data : Bytes) :
    (placed o buffered base s).writeMessage header data =
      match (s.indexMessage o header).push (.message header data) with
      | .ok s' => .ok (placed o buffered base s')
      | .error (e, s') => .err (.io e, placed o buffered base s') := by
  have hr : (Record.message header data).written = some (Record.message header data).frame :=
    congrArg some (Record.written_eq_some rfl)
  rw [← writeRecord_placed hr]
  rfl

/-! ### Closing -/

omit [Encoders σ] in
theorem writeAll_opAndLen (pre : Option Hasher) (len : Nat) (out : Bytes) :
    writeAll (CountingCrcWriter.withHasher
      (ChunkSink.heldAt buffered base (dummy o ++ out) 0) pre) (opAndLen op.CHUNK len) =
    .ok ⟨ChunkSink.heldAt buffered base
        (opAndLen op.CHUNK len ++ ((dummyHeader o.compression).bytes ++ out)) 9,
      pre.map (·.update (opAndLen op.CHUNK len)), 9⟩ := by
  have hover := @ChunkSink.writeAll_over_old buffered base [] (opAndLen op.CHUNK (2 ^ 64 - 1))
    (opAndLen op.CHUNK len) ((dummyHeader o.compression).bytes ++ out)
    (by rw [length_opAndLen, length_opAndLen])
  simp only [List.nil_append, List.length_nil, length_opAndLen] at hover
  rw [← List.append_assoc, ← dummy] at hover
  rw [CountingCrcWriter.writeAll_ok hover, CountingCrcWriter.account, length_opAndLen]
  rfl

omit [Encoders σ] in
theorem writeAll_header (pre : Option Hasher) {opLen : Bytes} (hop : opLen.length = 9)
    {header : ChunkHeader}
    (hlen : (dummyHeader o.compression).bytes.length = header.bytes.length) (out : Bytes) :
    writeAll (⟨ChunkSink.heldAt buffered base
        (opLen ++ ((dummyHeader o.compression).bytes ++ out)) 9, pre.map (·.update opLen), 9⟩ :
      CountingCrcWriter (ChunkSink Stream)) header.bytes =
    .ok ⟨ChunkSink.heldAt buffered base (opLen ++ (header.bytes ++ out)) (9 + header.bytes.length),
      pre.map (·.update (opLen ++ header.bytes)), 9 + header.bytes.length⟩ := by
  have hover := @ChunkSink.writeAll_over_old buffered base opLen
    (dummyHeader o.compression).bytes header.bytes out hlen
  rw [List.length_append, hop, List.append_assoc] at hover
  rw [CountingCrcWriter.writeAll_ok hover, CountingCrcWriter.account]
  cases pre <;> simp

omit [Encoders σ] in
theorem length_header (out : Bytes) :
    (s.header o out).bytes.length = (dummyHeader o.compression).bytes.length := by
  rw [ChunkHeader.length_bytes, ChunkHeader.length_bytes]
  rfl

omit [Encoders σ] in
theorem length_dummy (s : ChunkContents σ) (out : Bytes) :
    (dummy o).length = 9 + (s.header o out).bytes.length := by
  rw [dummy, List.length_append, length_opAndLen, length_header]

omit [Encoders σ] in
theorem length_chunk (s : ChunkContents σ) (out : Bytes) :
    (dummy o ++ out).length = (s.chunk o out).frame.length := by
  rw [List.length_append, length_dummy s out, Record.frame, length_frame, Nat.add_assoc,
    ← List.length_append]
  rfl

/-- **The header is put where the dummy is.** -/
theorem patchHeader_placed (h : s.coder.finish = .ok x) :
    (placed o buffered base s).patchHeader =
      .ok ((s.chunk o (s.out ++ x)).frame.length, s.header o (s.out ++ x),
        s.preChunkCrc.map (·.update (opAndLen op.CHUNK (s.chunk o (s.out ++ x)).body.length ++
          (s.header o (s.out ++ x)).bytes)),
        if o.calculateChunkCrcs then some ⟨s.out ++ x⟩ else none,
        ChunkSink.held buffered base (s.chunk o (s.out ++ x)).frame) := by
  have hsink := @writeAll_sink buffered base o.calculateChunkCrcs (dummy o) s.out
  have hfinish := Coder.finish_onto h (hsink x) (by rw [hsink [], List.append_nil])
  generalize s.out ++ x = out' at hfinish ⊢
  have hsize : ChunkSink.origin buffered base + (dummy o ++ out').length -
      ChunkSink.origin buffered base = (s.chunk o out').frame.length := by
    rw [Nat.add_sub_cancel_left, length_chunk s]
  have hrec : (s.chunk o out').frame.length - 9 = (s.chunk o out').body.length := by
    rw [Record.frame, length_frame, Nat.add_sub_cancel_left]
  unfold patchHeader
  rw [show (placed o buffered base s).compressor.inner.finish = _ from hfinish]
  simp only [passOn, unwrapWriter, Res.ok_bind, CountingCrcWriter.position,
    show (placed o buffered base s).header out'.length = s.header o out' from rfl]
  rw [ChunkSink.held, position_of_streamPosition ChunkSink.streamPosition_heldAt]
  simp only [Res.ok_bind, show (placed o buffered base s).headerStart =
    ChunkSink.origin buffered base from rfl, hsize, hrec,
    show (placed o buffered base s).preChunkCrc = s.preChunkCrc from rfl]
  rw [show seekStart (ChunkSink.heldAt buffered base (dummy o ++ out') (dummy o ++ out').length)
    (ChunkSink.origin buffered base) = _ from ChunkSink.seekStart_heldAt 0]
  simp only [Res.ok_bind]
  rw [write_of_writeAll (writeAll_opAndLen s.preChunkCrc _ out')]
  simp only [Res.ok_bind]
  rw [write_of_writeAll (writeAll_header s.preChunkCrc (length_opAndLen _ _)
    (length_header out').symm out')]
  simp only [Res.ok_bind]
  rw [position_of_streamPosition ChunkSink.streamPosition_heldAt]
  simp only [Res.ok_bind]
  rw [if_neg (not_not_intro (show (placed o buffered base s).dataStart = _
    from congrArg (ChunkSink.origin buffered base + ·) (length_dummy s out'))),
    ChunkSink.seekEnd_heldAt]
  rfl

theorem patchHeader_error (h : s.coder.finish = .error e) :
    (placed o buffered base s).patchHeader =
      .err ((ChunkSink.held buffered base (dummy o ++ s.out)).inner, .io e) := by
  unfold patchHeader
  rw [show (placed o buffered base s).compressor.inner.finish = _ from
    Coder.finish_onto_error h]
  rfl

omit [Encoders σ] in
theorem writeIndexes_onTape {l : List (UInt16 × List MessageIndexEntry)}
    {offsets : BTreeMap UInt16 UInt64} (hc : c.OnTape base) (hl : (l.map Prod.fst).Nodup)
    (hnew : ∀ id ∈ l.map Prod.fst, offsets.contains id = false) :
    writeIndexes l offsets c = .ok (BTreeMap.insertAll offsets (indexOffsets base.length l),
      c.push base (content (l.map indexRecord))) := by
  induction l generalizing offsets c base with
  | nil =>
    rw [List.map_nil, content_nil, CountingCrcWriter.push_nil hc]
    rfl
  | cons e l ih =>
    obtain ⟨channelId, records⟩ := e
    rw [List.map_cons, List.nodup_cons] at hl
    have hframe : opAndLen op.MESSAGE_INDEX (MessageIndex.bytes ⟨channelId, records⟩).length ++
        MessageIndex.bytes ⟨channelId, records⟩ = (indexRecord (channelId, records)).frame := rfl
    have hstep := CountingCrcWriter.onTape_push c base (indexRecord (channelId, records)).frame
    unfold writeIndexes
    rw [position_of_streamPosition hc.streamPosition]
    simp only [Res.ok_bind]
    rw [if_neg (by rw [hnew channelId List.mem_cons_self]; exact Bool.false_ne_true),
      write_of_writeAll (hc.writeAll _)]
    simp only [Res.ok_bind]
    rw [write_of_writeAll ((CountingCrcWriter.onTape_push ..).writeAll _),
      CountingCrcWriter.push_push, hframe]
    simp only [Res.ok_bind]
    rw [ih hstep hl.2]
    · rw [CountingCrcWriter.push_push, List.length_append]
      rfl
    · intro id hid
      have hne : channelId ≠ id := by
        rintro rfl
        exact hl.1 hid
      rw [BTreeMap.contains_eq_false_iff, BTreeMap.getElem?_insert_ne _ hne,
        ← BTreeMap.contains_eq_false_iff]
      exact hnew id (List.mem_cons_of_mem _ hid)

/-- **The chunk is finished**: its record and those of its message indexes are behind what
the stream held. -/
theorem finish_placed (h : s.coder.finish = .ok x) :
    (placed o buffered base s).finish =
      .ok (s.closed o base (s.out ++ x),
        ChunkSink.modeAfter buffered (s.chunk o (s.out ++ x)).frame,
        s.index o base.length (s.out ++ x)) := by
  generalize hout : s.out ++ x = out'
  have htape : (CountingCrcWriter.withHasher (Stream.tape (base ++ (s.chunk o out').frame))
      (s.hasherAfter o out')).OnTape (base ++ (s.chunk o out').frame) := rfl
  have hindexes := writeIndexes_onTape htape (BTreeMap.nodup_keys_toList s.indexes)
    (fun id _ => (BTreeMap.contains_eq_false_iff ∅ id).mpr Std.ExtTreeMap.getElem?_empty)
  unfold finish
  rw [patchHeader_placed h, hout]
  simp only [Res.ok_bind]
  rw [ChunkSink.finish_held]
  simp only [passOn, unwrapWriter, Res.ok_bind]
  rw [← ChunkContents.hasherAfter, position_of_streamPosition htape.streamPosition]
  simp only [Res.ok_bind]
  rw [show (placed o buffered base s).indexes.toList = s.indexes.toList from rfl, hindexes]
  simp only [Res.ok_bind]
  rw [position_of_streamPosition (CountingCrcWriter.onTape_push ..).streamPosition]
  simp only [Res.ok_bind, Res.pure_eq]
  have hspan : (base ++ (s.chunk o out').frame ++ content s.indexRecords).length
      - (base ++ (s.chunk o out').frame).length = (content s.indexRecords).length := by
    rw [List.length_append, Nat.add_sub_cancel_left]
  rw [ChunkContents.closed, ChunkContents.index, ← ChunkContents.indexRecords, hspan, List.length_append]
  rfl

theorem finish_placed_error (h : s.coder.finish = .error e) :
    (placed o buffered base s).finish =
      .err ((ChunkSink.held buffered base (dummy o ++ s.out)).inner, .io e) := by
  unfold finish
  rw [patchHeader_error h]
  rfl

end

/-! ## Chunk writers whose records are known -/

/-- The chunk writer once `records` have gone into it and its compressor has emitted
`out`. -/
def filled (o : WriteOptions) (pre : Option Hasher) (records : List Record) (coder : Coder σ)
    (out : Bytes) : ChunkContents σ where
  messageBounds := timeBounds records
  indexes := writtenIndexes o records
  hasher := if o.calculateChunkCrcs then some ⟨content records⟩ else none
  count := (content records).length
  coder
  out
  preChunkCrc := pre

/-- **The chunk writer** over a stream that held `base`, once `records` have gone into it
and its compressor has emitted `out`. -/
def holding (o : WriteOptions) (buffered : Bool) (base : Bytes) (pre : Option Hasher)
    (records : List Record) (coder : Coder σ) (out : Bytes) : ChunkWriter σ Stream :=
  placed o buffered base (filled o pre records coder out)

/-- The hasher of the stream once the header and the compressed data of a chunk have been
written. -/
def hasherAfter (o : WriteOptions) (pre : Option Hasher) (records : List Record) (out : Bytes) :
    Option Hasher :=
  joinHashers (pre.map (·.update (opAndLen op.CHUNK (closedChunk o records out).body.length ++
    (chunkHeader o records out).bytes))) (if o.calculateChunkCrcs then some ⟨out⟩ else none)

/-- The stream once a chunk has been finished. -/
def closed (o : WriteOptions) (base : Bytes) (pre : Option Hasher) (records : List Record)
    (out : Bytes) : CountingCrcWriter Stream :=
  (CountingCrcWriter.withHasher (Stream.tape (base ++ (closedChunk o records out).frame))
    (hasherAfter o pre records out)).push (base ++ (closedChunk o records out).frame)
      (content (indexRecords o records))

section
variable {o : WriteOptions} {buffered : Bool} {base : Bytes} {pre : Option Hasher}
  {records : List Record} {coder coder' : Coder σ} {out out' x : Bytes} {e : IoError}

theorem header_filled : (filled o pre records coder out).header o out' =
    chunkHeader o records out' := by
  simp only [ChunkContents.header, filled, chunkHeader]
  cases o.calculateChunkCrcs <;> rfl

theorem chunk_filled : (filled o pre records coder out).chunk o out' =
    closedChunk o records out' := by
  rw [ChunkContents.chunk, header_filled]
  rfl

theorem index_filled (pos : Nat) : (filled o pre records coder out).index o pos out' =
    chunkIndex o pos records out' := by
  rw [ChunkContents.index, header_filled, chunk_filled]
  rfl

theorem closed_filled : (filled o pre records coder out).closed o base out' =
    closed o base pre records out' := by
  rw [ChunkContents.closed, ChunkContents.hasherAfter, header_filled, chunk_filled]
  rfl

variable [Encoders σ]

/-- **A new chunk holds nothing.** -/
theorem new_holding {c : CountingCrcWriter Stream} (hc : c.OnTape base) (mode : ChunkMode)
    (h : Coder.start o.compression o.compressionLevel o.compressionThreads = .ok (coder, out)) :
    new c o.compression mode o.emitMessageIndexes o.calculateChunkCrcs o.compressionLevel
      o.compressionThreads =
        .ok (holding o (ChunkSink.isBuffered mode) base c.hasher [] coder out) := by
  have hstart : ChunkContents.start o coder out c.hasher = filled o c.hasher [] coder out := by
    rw [ChunkContents.start, filled]
    congr 1
    cases o.emitMessageIndexes <;> simp [writtenIndexes, channelIndexes]
  rw [new_placed hc mode h, hstart]
  rfl

theorem push_filled {r : Record} {s : ChunkContents σ} (h : coder.push r.frame = .ok (coder', x))
    (hs : s = { filled o pre records coder out with
      messageBounds := timeBounds (records ++ [r])
      indexes := writtenIndexes o (records ++ [r]) }) :
    s.push r = .ok (filled o pre (records ++ [r]) coder' (out ++ x)) := by
  subst hs
  unfold ChunkContents.push
  rw [show ({ filled o pre records coder out with
      messageBounds := timeBounds (records ++ [r])
      indexes := writtenIndexes o (records ++ [r]) } : ChunkContents σ).coder.push r.frame = _ from h]
  simp only [filled, content_append, content_singleton]
  congr 2
  · cases o.calculateChunkCrcs <;> rfl
  · exact (List.length_append ..).symm

/-- **A record that is no message** only goes through the compressor. -/
theorem writeRecord_holding {r : Record} (hr : r.written = some r.frame)
    (hmsg : ∀ header data, r ≠ .message header data) (h : coder.push r.frame = .ok (coder', x)) :
    (holding o buffered base pre records coder out).writeRecord r =
      .ok (holding o buffered base pre (records ++ [r]) coder' (out ++ x)) := by
  have hb : timeBounds (records ++ [r]) = timeBounds records := by
    rw [timeBounds_append]
    cases r <;> first | rfl | exact absurd rfl (hmsg _ _)
  have hi : writtenIndexes o (records ++ [r]) = writtenIndexes o records := by
    rw [writtenIndexes, writtenIndexes, channelIndexes_append]
    cases r <;> first | rfl | exact absurd rfl (hmsg _ _)
  have hs : filled o pre records coder out = { filled o pre records coder out with
      messageBounds := timeBounds (records ++ [r])
      indexes := writtenIndexes o (records ++ [r]) } := by
    rw [hb, hi]
    rfl
  rw [holding, writeRecord_placed hr, push_filled h hs]
  rfl

theorem writeRecord_error {r : Record} (hr : r.written = some r.frame)
    (h : coder.push r.frame = .error (e, coder')) :
    (holding o buffered base pre records coder out).writeRecord r =
      .err (.io e, holding o buffered base pre records coder' out) := by
  rw [holding, writeRecord_placed hr]
  unfold ChunkContents.push
  rw [show (filled o pre records coder out).coder.push r.frame = _ from h]
  rfl

/-- **A message** also goes into the time bounds and the index of its channel. -/
theorem writeMessage_holding {header : MessageHeader} {data : Bytes}
    (h : coder.push (Record.message header data).frame = .ok (coder', x)) :
    (holding o buffered base pre records coder out).writeMessage header data =
      .ok (holding o buffered base pre (records ++ [.message header data]) coder' (out ++ x)) := by
  have hs : (filled o pre records coder out).indexMessage o header =
      { filled o pre records coder out with
        messageBounds := timeBounds (records ++ [.message header data])
        indexes := writtenIndexes o (records ++ [.message header data]) } := by
    rw [timeBounds_append, writtenIndexes, channelIndexes_append]
    simp only [ChunkContents.indexMessage, filled, writtenIndexes, indexStep, boundsStep]
    by_cases hemit : o.emitMessageIndexes = true <;> simp [hemit]
  rw [holding, writeMessage_placed, push_filled h hs]
  rfl

theorem writeMessage_error {header : MessageHeader} {data : Bytes}
    (h : coder.push (Record.message header data).frame = .error (e, coder')) :
    ∃ c, (holding o buffered base pre records coder out).writeMessage header data =
      .err (.io e, c) := by
  rw [holding, writeMessage_placed]
  unfold ChunkContents.push
  rw [show ((filled o pre records coder out).indexMessage o header).coder.push _ = _ from h]
  exact ⟨_, rfl⟩

/-- **The chunk is finished**: its record and those of its message indexes are behind what
the stream held. -/
theorem finish_holding (h : coder.finish = .ok x) :
    (holding o buffered base pre records coder out).finish =
      .ok (closed o base pre records (out ++ x),
        ChunkSink.modeAfter buffered (closedChunk o records (out ++ x)).frame,
        chunkIndex o base.length records (out ++ x)) := by
  rw [holding, finish_placed h, closed_filled, chunk_filled, index_filled]
  rfl

theorem finish_error (h : coder.finish = .error e) :
    (holding o buffered base pre records coder out).finish =
      .err ((ChunkSink.held buffered base (dummy o ++ out)).inner, .io e) :=
  finish_placed_error h

end
end ChunkWriter
end Mcap

import Mcap.BiMap
import Mcap.RecordCodec
import Mcap.Sink
import Mcap.Types

/-! # The writer

`Writer` of `write.rs` with its chunk and attachment writers.  The operations are
methods in `Exec`: an error leaves the state as it is at that point, and a failed
`expect` or `assert!` is a panic.  A writer is generic in the stream `W` it writes to
and the encoders `σ` it compresses with.

Arithmetic on ids and counters is that of a release build: it wraps.  The hash maps of
a `Summary` are written out in no particular order; `HashOrder` is the order a run
happens to use.  `dropped` keeps the write mode that a failed `finish_attachment` has
thrown away: no operation reads it.
-/
namespace Mcap

/-! ## Records as the writer emits them -/

/-- `op_and_len`. -/
def opAndLen (opcode : UInt8) (len : Nat) : Bytes := opcode :: le 8 len

/-- `MessageHeader::serialized_len`. -/
def MessageHeader.serializedLen (_ : MessageHeader) : Nat := 2 + 4 + 8 + 8

/-- The body of a record, after its opcode and its length. -/
def plainRecord (opcode : UInt8) (recBuf : Bytes) : Bytes := opAndLen opcode recBuf.length ++ recBuf

/-- What `write_record` writes; `none` for the records it declares unreachable. -/
def Record.written : Record → Option Bytes
  | .header h => some (plainRecord op.HEADER h.bytes)
  | .footer _ => none
  | .schema h data =>
      some (opAndLen op.SCHEMA (h.bytes.length + 4 + data.length) ++ h.bytes ++
        le 4 data.length ++ data)
  | .channel c => some (plainRecord op.CHANNEL c.bytes)
  | .message h data =>
      some (opAndLen op.MESSAGE (h.serializedLen + data.length) ++ h.bytes ++ data)
  | .chunk .. => none
  | .messageIndex _ => none
  | .chunkIndex c => some (plainRecord op.CHUNK_INDEX c.bytes)
  | .attachment .. => none
  | .attachmentIndex ai => some (plainRecord op.ATTACHMENT_INDEX ai.bytes)
  | .statistics s => some (plainRecord op.STATISTICS s.bytes)
  | .metadata m => some (plainRecord op.METADATA m.bytes)
  | .metadataIndex mi => some (plainRecord op.METADATA_INDEX mi.bytes)
  | .summaryOffset so => some (plainRecord op.SUMMARY_OFFSET so.bytes)
  | .dataEnd eod => some (plainRecord op.DATA_END eod.bytes)
  | .unknown opcode data => some (opAndLen opcode data.length ++ data)

/-- `write_all`, with its error as the source passes it on. -/
def write {W : Type} [Write W] (w : W) (b : Bytes) : Res (McapError × W) W :=
  match writeAll w b with
  | .ok w => .ok w
  | .error (f, w) => .err (.io f.error, w)

/-- `write_record`. -/
def writeRecord {W : Type} [Write W] (w : W) (r : Record) : Res (McapError × W) W :=
  match r.written with
  | some b => write w b
  | none => .panic

/-- Another call on a stream, with its error as the source passes it on. -/
def passOn {W α : Type} : Except (IoError × W) α → Res (McapError × W) α
  | .ok a => .ok a
  | .error (e, w) => .err (.io e, w)

/-- `stream_position`. -/
def position {W : Type} [Seek W] (w : W) : Res (McapError × W) (Nat × W) :=
  passOn (streamPosition w)

/-- Forget what a failed call has left of its writer. -/
def dropWriter {W α : Type} : Res (McapError × W) α → Res McapError α
  | .ok a => .ok a
  | .err (e, _) => .err e
  | .panic => .panic

/-- A failed call of a part gives back what the whole wraps. -/
def unwrapWriter {V W α : Type} (unwrap : V → W) : Res (McapError × V) α → Res (W × McapError) α
  | .ok a => .ok a
  | .err (e, v) => .err (unwrap v, e)
  | .panic => .panic

/-! ## Chunk writers -/

/-- `ChunkWriter`. -/
structure ChunkWriter (σ W : Type) where
  chunkOffset : Nat
  headerStart : Nat
  dataStart : Nat
  messageBounds : Option (UInt64 × UInt64)
  compressionName : String
  compressor : CountingCrcWriter (Compressor σ (CountingCrcWriter (ChunkSink W)))
  indexes : BTreeMap UInt16 (List MessageIndexEntry)
  preChunkCrc : Option Hasher
  emitMessageIndexes : Bool

/-- The update of the time bounds by a message. -/
def extendBounds (bounds : Option (UInt64 × UInt64)) (logTime : UInt64) : UInt64 × UInt64 :=
  match bounds with
  | none => (logTime, logTime)
  | some (start, stop) => (min start logTime, max stop logTime)

/-- The name of a compression in a chunk header. -/
def compressionName : Option Compression → String
  | some .zstd => "zstd"
  | some .lz4 => "lz4"
  | none => ""

namespace ChunkWriter
variable {σ W : Type} [Encoders σ] [Write W] [Seek W]

/-- The header a chunk starts with, until it is finished. -/
def dummyHeader (compression : Option Compression) : ChunkHeader where
  messageStartTime := 0
  messageEndTime := 0
  uncompressedSize := ~~~0
  uncompressedCrc := ~~~0
  compression := Mcap.compressionName compression
  compressedSize := ~~~0

/-- The compressor of a chunk. -/
def newCompressor {V : Type} [Write V] (sink : V) (compression : Option Compression)
    (level threads : UInt32) : Res McapError (Compressor σ V) :=
  match compression with
  | some .zstd =>
      match Encoders.newZstd level threads with
      | .ok encoder => .ok (.zstd encoder sink)
      | .error e => .err (.io e)
  | some .lz4 =>
      match Encoders.newLz4 level with
      | .ok (encoder, out) => do
          let sink ← dropWriter (write sink out)
          pure (.lz4 encoder sink)
      | .error e => .err (.io e)
  | none => .ok (.null sink)

/-- `ChunkWriter::new`. -/
def new (writer : CountingCrcWriter W) (compression : Option Compression) (mode : ChunkMode)
    (emitMessageIndexes calculateChunkCrcs : Bool) (level threads : UInt32) :
    Res McapError (ChunkWriter σ W) := do
  let (chunkOffset, writer) ← dropWriter (position writer)
  let preChunkCrc := writer.hasher
  let (headerStart, sink) ← dropWriter (position (ChunkSink.new writer.inner mode))
  let sink ← dropWriter (write sink (opAndLen op.CHUNK (2 ^ 64 - 1)))
  let sink ← dropWriter (write sink (dummyHeader compression).bytes)
  let (dataStart, sink) ← dropWriter (position sink)
  let compressor ←
    newCompressor (CountingCrcWriter.new sink calculateChunkCrcs) compression level threads
  pure
    { chunkOffset
      headerStart
      dataStart
      messageBounds := none
      compressionName := Mcap.compressionName compression
      compressor := CountingCrcWriter.new compressor calculateChunkCrcs
      indexes := ∅
      preChunkCrc
      emitMessageIndexes }

/-- `ChunkWriter::write_record`. -/
def writeRecord (c : ChunkWriter σ W) (r : Record) :
    Res (McapError × ChunkWriter σ W) (ChunkWriter σ W) :=
  match Mcap.writeRecord c.compressor r with
  | .ok compressor => .ok { c with compressor }
  | .err (e, compressor) => .err (e, { c with compressor })
  | .panic => .panic

/-- The message goes into the time bounds and the index of its channel. -/
def indexMessage (c : ChunkWriter σ W) (header : MessageHeader) : ChunkWriter σ W :=
  { c with
    messageBounds := some (extendBounds c.messageBounds header.logTime)
    indexes :=
      if c.emitMessageIndexes then
        c.indexes.insert header.channelId
          (c.indexes.getD header.channelId [] ++
            [⟨header.logTime, .ofNat c.compressor.position⟩])
      else c.indexes }

/-- `ChunkWriter::write_message`. -/
def writeMessage (c : ChunkWriter σ W) (header : MessageHeader) (data : Bytes) :
    Res (McapError × ChunkWriter σ W) (ChunkWriter σ W) :=
  (c.indexMessage header).writeRecord (.message header data)

/-- The header a chunk is given in the end. -/
def header (c : ChunkWriter σ W) (compressedSize : Nat) : ChunkHeader where
  messageStartTime := (c.messageBounds.getD (0, 0)).1
  messageEndTime := (c.messageBounds.getD (0, 0)).2
  uncompressedSize := .ofNat c.compressor.position
  uncompressedCrc := (c.compressor.hasher.map Hasher.finalize).getD 0
  compression := c.compressionName
  compressedSize := .ofNat compressedSize

/-- The hasher of everything up to the chunk header, joined with that of the
compressed data, if both are there. -/
def joinHashers : Option Hasher → Option Hasher → Option Hasher
  | some h, some compressed => some (h.combine compressed)
  | h, _ => h

/-- The loop over the message indexes of a finished chunk. -/
def writeIndexes : List (UInt16 × List MessageIndexEntry) → BTreeMap UInt16 UInt64 →
    CountingCrcWriter W → Res (McapError × CountingCrcWriter W)
      (BTreeMap UInt16 UInt64 × CountingCrcWriter W)
  | [], offsets, writer => .ok (offsets, writer)
  | (channelId, records) :: rest, offsets, writer => do
      let (pos, writer) ← position writer
      if offsets.contains channelId then .panic
      else
        let indexBuf := MessageIndex.bytes { channelId, records }
        let writer ← write writer (opAndLen op.MESSAGE_INDEX indexBuf.length)
        let writer ← write writer indexBuf
        writeIndexes rest (offsets.insert channelId (.ofNat pos)) writer

/-- The first half of `ChunkWriter::finish`: end the compressed stream, go back and
put the header where the dummy is, and go to the end again.  The result is the chunk's
length, the header, the hasher of what is before the compressed data, that of the
compressed data, and the sink. -/
def patchHeader (c : ChunkWriter σ W) :
    Res (W × McapError) (Nat × ChunkHeader × Option Hasher × Option Hasher × ChunkSink W) := do
  let writer ← unwrapWriter (·.inner.inner) (passOn c.compressor.inner.finish)
  let header := c.header writer.position
  let compressedCrc := writer.hasher
  let (dataEnd, sink) ← unwrapWriter (·.inner) (position writer.inner)
  let recordSize := dataEnd - c.headerStart - 9
  let sink ← unwrapWriter (·.inner) (passOn (seekStart sink c.headerStart))
  let writer := CountingCrcWriter.withHasher sink c.preChunkCrc
  let writer ← unwrapWriter (·.inner.inner) (write writer (opAndLen op.CHUNK recordSize))
  let writer ← unwrapWriter (·.inner.inner) (write writer header.bytes)
  let (pos, sink) ← unwrapWriter (·.inner) (position writer.inner)
  if c.dataStart ≠ pos then .panic
  else
    let sink ← unwrapWriter (·.inner) (passOn (seekEnd sink))
    pure (dataEnd - c.headerStart, header, writer.hasher, compressedCrc, sink)

/-- `ChunkWriter::finish`. -/
def finish (c : ChunkWriter σ W) :
    Res (W × McapError) (CountingCrcWriter W × ChunkMode × ChunkIndex) := do
  let (chunkLength, header, postChunkHeaderCrc, compressedCrc, sink) ← c.patchHeader
  let (writer, mode) ← unwrapWriter id (passOn sink.finish)
  let writer := CountingCrcWriter.withHasher writer (joinHashers postChunkHeaderCrc compressedCrc)
  let (dataEnd, writer) ← unwrapWriter (·.inner) (position writer)
  let (messageIndexOffsets, writer) ←
    unwrapWriter (·.inner) (writeIndexes c.indexes.toList ∅ writer)
  let (pos, writer) ← unwrapWriter (·.inner) (position writer)
  pure (writer, mode,
    { messageStartTime := header.messageStartTime
      messageEndTime := header.messageEndTime
      chunkStartOffset := .ofNat c.chunkOffset
      chunkLength := .ofNat chunkLength
      messageIndexOffsets
      messageIndexLength := .ofNat (pos - dataEnd)
      compression := header.compression
      compressedSize := header.compressedSize
      uncompressedSize := header.uncompressedSize })

end ChunkWriter

/-! ## Attachment writers -/

/-- `AttachmentWriter`. -/
structure AttachmentWriter (W : Type) where
  recordOffset : Nat
  attachmentOffset : Nat
  attachmentLength : UInt64
  header : AttachmentHeader
  writer : CountingCrcWriter W

namespace AttachmentWriter
variable {W : Type} [Write W] [Seek W]

/-- `AttachmentWriter::new`. -/
def new (writer : W) (attachmentLength : UInt64) (header : AttachmentHeader) (calculateCrc : Bool) :
    Res McapError (AttachmentWriter W) := do
  let (recordOffset, writer) ← dropWriter (position writer)
  let headerBuf := header.bytes
  let writer ← dropWriter (write writer
    (opAndLen op.ATTACHMENT (headerBuf.length + 8 + attachmentLength.toNat + 4)))
  let writer := CountingCrcWriter.new writer calculateCrc
  let writer ← dropWriter (write writer headerBuf)
  let writer ← dropWriter (write writer (u64 attachmentLength))
  pure { recordOffset, attachmentOffset := writer.position, attachmentLength, header, writer }

/-- `AttachmentWriter::put_bytes`. -/
def putBytes (a : AttachmentWriter W) (bytes : Bytes) :
    Res (McapError × AttachmentWriter W) (AttachmentWriter W) :=
  let attachmentPosition := a.writer.position - a.attachmentOffset
  let space := a.attachmentLength.toNat - attachmentPosition
  if bytes.length > space then
    .err (.attachmentTooLarge (bytes.length - space) a.attachmentLength.toNat, a)
  else
    match write a.writer bytes with
    | .ok writer => .ok { a with writer }
    | .err (e, writer) => .err (e, { a with writer })
    | .panic => .panic

/-- `AttachmentWriter::finish`. -/
def finish (a : AttachmentWriter W) : Res McapError (W × AttachmentIndex) := do
  let expected := a.attachmentLength.toNat
  let current := a.writer.position - a.attachmentOffset
  if expected ≠ current then .err (.attachmentIncomplete current expected)
  else
    let crc := a.writer.currentChecksum
    let writer ← dropWriter (write a.writer.inner (u32 crc))
    let (pos, writer) ← dropWriter (position writer)
    pure (writer,
      { offset := .ofNat a.recordOffset
        length := .ofNat (pos - a.recordOffset)
        logTime := a.header.logTime
        createTime := a.header.createTime
        dataSize := a.attachmentLength
        name := a.header.name
        mediaType := a.header.mediaType })

end AttachmentWriter

/-! ## Writers -/

/-- `WriteOptions`. -/
structure WriteOptions where
  compression : Option Compression
  profile : String
  library : String
  chunkSize : Option UInt64
  useChunks : Bool
  disableSeeking : Bool
  emitStatistics : Bool
  emitSummaryOffsets : Bool
  emitMessageIndexes : Bool
  emitChunkIndexes : Bool
  emitAttachmentIndexes : Bool
  emitMetadataIndexes : Bool
  repeatChannels : Bool
  repeatSchemas : Bool
  calculateChunkCrcs : Bool
  calculateDataSectionCrc : Bool
  calculateSummarySectionCrc : Bool
  calculateAttachmentCrcs : Bool
  compressionLevel : UInt32
  compressionThreads : UInt32
deriving DecidableEq

/-- `ChannelContent`. -/
structure ChannelContent where
  topic : String
  schemaId : UInt16
  messageEncoding : String
  metadata : BTreeMap String String
deriving DecidableEq

/-- `SchemaContent`. -/
structure SchemaContent where
  name : String
  encoding : String
  data : Bytes
deriving DecidableEq

/-- `WriteMode`. -/
inductive WriteMode (σ W : Type)
  | raw (w : CountingCrcWriter W)
  | chunk (c : ChunkWriter σ W)
  | attachment (a : AttachmentWriter (CountingCrcWriter W))
  | failed (w : W)

/-- `Writer`. -/
structure Writer (σ W : Type) where
  writer : Option (WriteMode σ W)
  dropped : Option (WriteMode σ W)
  finishedSummary : Option Summary
  chunkMode : ChunkMode
  options : WriteOptions
  canonicalChannels : BiMap ChannelContent UInt16
  allChannelIds : BTreeMap UInt16 UInt16
  canonicalSchemas : BiMap SchemaContent UInt16
  allSchemaIds : BTreeMap UInt16 UInt16
  nextSchemaId : UInt16
  nextChannelId : UInt16
  chunkIndexes : List ChunkIndex
  attachmentCount : UInt32
  attachmentIndexes : List AttachmentIndex
  metadataCount : UInt32
  metadataIndexes : List MetadataIndex
  messageBounds : Option (UInt64 × UInt64)
  channelMessageCounts : BTreeMap UInt16 UInt64

/-- The schema a content is registered as. -/
def SchemaContent.record (content : SchemaContent) (id : UInt16) : Record :=
  .schema { id, name := content.name, encoding := content.encoding } content.data

/-- The channel a content is registered as. -/
def ChannelContent.record (content : ChannelContent) (id : UInt16) : Record :=
  .channel
    { id
      schemaId := content.schemaId
      topic := content.topic
      messageEncoding := content.messageEncoding
      metadata := content.metadata }

/-- The content of a schema. -/
def Schema.content (schema : Schema) : SchemaContent where
  name := schema.name
  encoding := schema.encoding
  data := schema.data

/-- The content of a channel: its schema counts by its id, and 0 stands for none. -/
def Channel.content (channel : Channel) : ChannelContent where
  topic := channel.topic
  schemaId := (channel.schema.map Schema.id).getD 0
  messageEncoding := channel.messageEncoding
  metadata := channel.metadata

/-- The first id from `n` on that is not taken, or 65535 if all of them are.  The fuel
is the distance to 65535. -/
def skipTaken (ids : BTreeMap UInt16 UInt16) : Nat → UInt16 → UInt16
  | 0, n => n
  | fuel + 1, n => if ids.contains n then skipTaken ids fuel (n + 1) else n

namespace Writer
variable {σ W : Type} [Encoders σ] [Write W] [Seek W]

/-- The chunk mode of a new writer.  A buffer longer than a `Vec` can be is a panic. -/
def newChunkMode (opts : WriteOptions) : Res McapError ChunkMode :=
  if opts.useChunks && opts.disableSeeking then
    if (opts.chunkSize.getD 0).toNat > ISIZE_MAX then .panic else .ok (.buffered [])
  else .ok .direct

/-- `Writer::with_options`. -/
def withOptions (writer : W) (opts : WriteOptions) : Res McapError (Writer σ W) := do
  let writer := CountingCrcWriter.new writer opts.calculateDataSectionCrc
  let writer ← dropWriter (Mcap.write writer MAGIC)
  let writer ← dropWriter
    (writeRecord writer (.header { profile := opts.profile, library := opts.library }))
  let chunkMode ← newChunkMode opts
  pure
    { writer := some (.raw writer)
      dropped := none
      finishedSummary := none
      chunkMode
      options := opts
      canonicalChannels := .empty
      allChannelIds := ∅
      canonicalSchemas := .empty
      allSchemaIds := ∅
      nextSchemaId := 1
      nextChannelId := 1
      chunkIndexes := []
      attachmentCount := 0
      attachmentIndexes := []
      metadataCount := 0
      metadataIndexes := []
      messageBounds := none
      channelMessageCounts := ∅ }

/-! ### Chunks -/

/-- `Writer::assert_not_finished`. -/
def assertNotFinished : Exec (Writer σ W) McapError Unit := fun w =>
  if w.finishedSummary.isNone then (.ok (), w) else (.panic, w)

/-- `Writer::start_chunk`. -/
def startChunk : Exec (Writer σ W) McapError Unit := do
  assertNotFinished
  let w ← Exec.get
  match w.writer with
  | some (.attachment _) => Exec.fail .attachmentNotInProgress
  | none => Exec.abort
  | some mode =>
      Exec.assert w.options.useChunks
      match mode with
      | .raw writer =>
          match ChunkWriter.new writer w.options.compression w.chunkMode
              w.options.emitMessageIndexes w.options.calculateChunkCrcs
              w.options.compressionLevel w.options.compressionThreads with
          | .ok c => Exec.modify fun w => { w with writer := some (.chunk c), chunkMode := .direct }
          | .err e => do
              Exec.modify fun w => { w with writer := none, chunkMode := .direct }
              Exec.fail e
          | .panic => Exec.abort
      | .failed _ => Exec.fail .attemptedWriteAfterFailure
      | _ => pure ()

/-- `Writer::finish_chunk`. -/
def finishChunk : Exec (Writer σ W) McapError Unit := do
  assertNotFinished
  let w ← Exec.get
  match w.writer with
  | some (.attachment _) => Exec.fail .attachmentNotInProgress
  | none => Exec.abort
  | some (.chunk c) =>
      match c.finish with
      | .ok (writer, mode, index) =>
          Exec.modify fun w =>
            { w with
              chunkIndexes := w.chunkIndexes ++ [index]
              chunkMode := mode
              writer := some (.raw writer) }
      | .err (stream, e) => do
          Exec.modify fun w => { w with writer := some (.failed stream) }
          Exec.fail e
      | .panic => Exec.abort
  | some (.failed _) => Exec.fail .attemptedWriteAfterFailure
  | some (.raw _) => pure ()

/-- Work on the open chunk that `start_chunk` has returned. -/
def onChunk (f : ChunkWriter σ W → Res (McapError × ChunkWriter σ W) (ChunkWriter σ W)) :
    Exec (Writer σ W) McapError Unit := fun w =>
  match w.writer with
  | some (.chunk c) =>
      match f c with
      | .ok c => (.ok (), { w with writer := some (.chunk c) })
      | .err (e, c) => (.err e, { w with writer := some (.chunk c) })
      | .panic => (.panic, w)
  | _ => (.panic, w)

/-- Work on the stream that `finish_chunk` has returned. -/
def onRaw {α : Type}
    (f : CountingCrcWriter W → Res (McapError × CountingCrcWriter W) (α × CountingCrcWriter W)) :
    Exec (Writer σ W) McapError α := fun w =>
  match w.writer with
  | some (.raw c) =>
      match f c with
      | .ok (a, c) => (.ok a, { w with writer := some (.raw c) })
      | .err (e, c) => (.err e, { w with writer := some (.raw c) })
      | .panic => (.panic, w)
  | _ => (.panic, w)

/-- A record into the open chunk. -/
def chunkRecord (r : Record) : Exec (Writer σ W) McapError Unit := do
  startChunk
  onChunk (·.writeRecord r)

/-- A record outside of chunks. -/
def topRecord (r : Record) : Exec (Writer σ W) McapError Unit := do
  finishChunk
  onRaw fun c => do let c ← writeRecord c r; pure ((), c)

/-- A schema or a channel goes into a chunk, if there are any. -/
def writeDefinition (r : Record) : Exec (Writer σ W) McapError Unit := do
  let w ← Exec.get
  if w.options.useChunks then chunkRecord r else topRecord r

/-! ### Schemas, channels and messages -/

/-- `Writer::write_schema`. -/
def writeSchema (id : UInt16) (content : SchemaContent) : Exec (Writer σ W) McapError Unit :=
  writeDefinition (content.record id)

/-- `Writer::write_channel`. -/
def writeChannel (id : UInt16) (content : ChannelContent) : Exec (Writer σ W) McapError Unit :=
  writeDefinition (content.record id)

/-- `Writer::add_schema`. -/
def addSchema (name encoding : String) (data : Bytes) : Exec (Writer σ W) McapError UInt16 := do
  let w ← Exec.get
  let content : SchemaContent := { name, encoding, data }
  match w.canonicalSchemas.getByLeft content with
  | some id => pure id
  | none =>
      let id := skipTaken w.allSchemaIds (65535 - w.nextSchemaId.toNat) w.nextSchemaId
      Exec.modify fun w => { w with nextSchemaId := id }
      if w.allSchemaIds.contains id then Exec.fail .tooManySchemas
      else
        Exec.modify fun w => { w with nextSchemaId := id + 1 }
        match w.canonicalSchemas.insertNoOverwrite content id with
        | none => Exec.abort
        | some canonicalSchemas =>
            Exec.modify fun w =>
              { w with canonicalSchemas, allSchemaIds := w.allSchemaIds.insert id id }
            writeSchema id content
            pure id

/-- `Writer::add_channel`. -/
def addChannel (schemaId : UInt16) (topic messageEncoding : String)
    (metadata : BTreeMap String String) : Exec (Writer σ W) McapError UInt16 := do
  let w ← Exec.get
  let content : ChannelContent := { topic, schemaId, messageEncoding, metadata }
  match w.canonicalChannels.getByLeft content with
  | some id => pure id
  | none =>
      if schemaId ≠ 0 ∧ w.allSchemaIds.contains schemaId = false then
        Exec.fail (.unknownSchema topic schemaId)
      else
        let id := skipTaken w.allChannelIds (65535 - w.nextChannelId.toNat) w.nextChannelId
        Exec.modify fun w => { w with nextChannelId := id }
        if w.allChannelIds.contains id then Exec.fail .tooManyChannels
        else
          Exec.modify fun w => { w with nextChannelId := id + 1 }
          match w.canonicalChannels.insertNoOverwrite content id with
          | none => Exec.abort
          | some canonicalChannels =>
              Exec.modify fun w =>
                { w with canonicalChannels, allChannelIds := w.allChannelIds.insert id id }
              writeChannel id content
              pure id

/-- The schema part of `Writer::write`. -/
def registerSchema (schema : Schema) : Exec (Writer σ W) McapError Unit := do
  let w ← Exec.get
  let canonicalSchemaId := w.canonicalSchemas.getByLeft schema.content
  match w.allSchemaIds[schema.id]? with
  | some other =>
      match canonicalSchemaId with
      | none => Exec.abort
      | some id => if other ≠ id then Exec.fail (.conflictingSchemas schema.name) else pure ()
  | none =>
      match canonicalSchemaId with
      | some id =>
          Exec.modify fun w => { w with allSchemaIds := w.allSchemaIds.insert schema.id id }
      | none =>
          match w.canonicalSchemas.insertNoOverwrite schema.content schema.id with
          | none => Exec.abort
          | some canonicalSchemas =>
              Exec.modify fun w =>
                { w with
                  canonicalSchemas
                  allSchemaIds := w.allSchemaIds.insert schema.id schema.id }
      writeSchema schema.id schema.content

/-- The channel part of `Writer::write`. -/
def registerChannel (channel : Channel) : Exec (Writer σ W) McapError Unit := do
  let w ← Exec.get
  let canonicalChannelId := w.canonicalChannels.getByLeft channel.content
  match w.allChannelIds[channel.id]? with
  | some other =>
      match canonicalChannelId with
      | none => Exec.abort
      | some id => if id ≠ other then Exec.fail (.conflictingChannels channel.topic) else pure ()
  | none =>
      match canonicalChannelId with
      | some id =>
          Exec.modify fun w => { w with allChannelIds := w.allChannelIds.insert channel.id id }
      | none =>
          match w.canonicalChannels.insertNoOverwrite channel.content channel.id with
          | none => Exec.abort
          | some canonicalChannels =>
              Exec.modify fun w =>
                { w with
                  canonicalChannels
                  allChannelIds := w.allChannelIds.insert channel.id channel.id }
      writeChannel channel.id channel.content

/-- The message goes into the time bounds and the count of its channel. -/
def countMessage (header : MessageHeader) (w : Writer σ W) : Writer σ W :=
  { w with
    messageBounds := some (extendBounds w.messageBounds header.logTime)
    channelMessageCounts := w.channelMessageCounts.insert header.channelId
      (w.channelMessageCounts.getD header.channelId 0 + 1) }

/-- A chunk that has grown beyond its target size is finished. -/
def rollChunk : Exec (Writer σ W) McapError Unit := do
  let w ← Exec.get
  match w.writer, w.options.chunkSize with
  | some (.chunk cw), some target =>
      if cw.compressor.position > target.toNat then finishChunk else pure ()
  | _, _ => pure ()

/-- A message into the open chunk, or to the stream if there are no chunks. -/
def writeMessageRecord (header : MessageHeader) (data : Bytes) :
    Exec (Writer σ W) McapError Unit := do
  let w ← Exec.get
  if w.options.useChunks then
    startChunk
    onChunk (·.writeMessage header data)
  else topRecord (.message header data)

/-- `Writer::write_to_known_channel`. -/
def writeToKnownChannel (header : MessageHeader) (data : Bytes) :
    Exec (Writer σ W) McapError Unit := do
  let w ← Exec.get
  if w.allChannelIds.contains header.channelId = false then
    Exec.fail (.unknownChannel header.sequence header.channelId)
  else
    Exec.modify (countMessage header)
    rollChunk
    writeMessageRecord header data

/-- `Writer::write`. -/
def write (message : Message) : Exec (Writer σ W) McapError Unit := do
  match message.channel.schema with
  | some schema => registerSchema schema
  | none => pure ()
  registerChannel message.channel
  writeToKnownChannel
    { channelId := message.channel.id
      sequence := message.sequence
      logTime := message.logTime
      publishTime := message.publishTime } message.data

/-- `Writer::write_private_record`. -/
def writePrivateRecord (opcode : UInt8) (data : Bytes) (includeInChunks : Bool) :
    Exec (Writer σ W) McapError Unit := do
  if opcode < 0x80 then Exec.fail (.privateRecordOpcodeIsReserved opcode)
  else
    let w ← Exec.get
    if w.options.useChunks && includeInChunks then chunkRecord (.unknown opcode data)
    else topRecord (.unknown opcode data)

/-! ### Attachments and metadata -/

/-- `Writer::start_attachment`. -/
def startAttachment (attachmentLength : UInt64) (header : AttachmentHeader) :
    Exec (Writer σ W) McapError Unit := do
  finishChunk
  let w ← Exec.get
  match w.writer with
  | some (.failed _) => Exec.fail .attemptedWriteAfterFailure
  | some (.raw writer) =>
      match AttachmentWriter.new writer attachmentLength header
          w.options.calculateAttachmentCrcs with
      | .ok a => Exec.modify fun w => { w with writer := some (.attachment a) }
      | .err e => do
          Exec.modify fun w => { w with writer := none }
          Exec.fail e
      | .panic => Exec.abort
  | _ => Exec.abort

/-- `Writer::put_attachment_bytes`. -/
def putAttachmentBytes (bytes : Bytes) : Exec (Writer σ W) McapError Unit := fun w =>
  match w.writer with
  | some (.attachment a) =>
      match a.putBytes bytes with
      | .ok a => (.ok (), { w with writer := some (.attachment a) })
      | .err (e, a) => (.err e, { w with writer := some (.attachment a) })
      | .panic => (.panic, w)
  | _ => (.err .attachmentNotInProgress, w)

/-- `Writer::finish_attachment`. -/
def finishAttachment : Exec (Writer σ W) McapError Unit := fun w =>
  match w.writer with
  | some (.attachment a) =>
      match a.finish with
      | .ok (writer, index) =>
          (.ok (),
            { w with
              attachmentCount := w.attachmentCount + 1
              attachmentIndexes :=
                if w.options.emitAttachmentIndexes then w.attachmentIndexes ++ [index]
                else w.attachmentIndexes
              writer := some (.raw writer) })
      | .err e => (.err e, { w with writer := none, dropped := some (.attachment a) })
      | .panic => (.panic, w)
  | _ => (.err .attachmentNotInProgress, w)

/-- `Writer::attach`. -/
def attach (attachment : Attachment) : Exec (Writer σ W) McapError Unit := do
  startAttachment (.ofNat attachment.data.length)
    { logTime := attachment.logTime
      createTime := attachment.createTime
      name := attachment.name
      mediaType := attachment.mediaType }
  putAttachmentBytes attachment.data
  finishAttachment

/-- A metadata record goes to the stream; the result is where it is and how long. -/
def putMetadata (metadata : Metadata) (c : CountingCrcWriter W) :
    Res (McapError × CountingCrcWriter W) ((Nat × Nat) × CountingCrcWriter W) := do
  let (offset, c) ← position c
  let c ← writeRecord c (.metadata metadata)
  let (stop, c) ← position c
  pure ((offset, stop - offset), c)

/-- `Writer::write_metadata`. -/
def writeMetadata (metadata : Metadata) : Exec (Writer σ W) McapError Unit := do
  finishChunk
  let (offset, length) ← onRaw (putMetadata metadata)
  Exec.modify fun w =>
    { w with
      metadataCount := w.metadataCount + 1
      metadataIndexes :=
        if w.options.emitMetadataIndexes then
          w.metadataIndexes ++
            [{ offset := .ofNat offset, length := .ofNat length, name := metadata.name }]
        else w.metadataIndexes }

end Writer

/-! ## The summary -/

/-- The order in which the hash maps of a summary are iterated. -/
structure HashOrder where
  schemas : BTreeMap UInt16 Schema → List (UInt16 × Schema)
  channels : BTreeMap UInt16 Channel → List (UInt16 × Channel)
  schemas_perm : ∀ m, (schemas m).Perm m.toList
  channels_perm : ∀ m, (channels m).Perm m.toList

/-- The ids in their order. -/
def HashOrder.byId : HashOrder := ⟨(·.toList), (·.toList), fun _ => .refl _, fun _ => .refl _⟩

/-- The records written so far in the summary section, where they end, and the groups
they form. -/
structure SummaryWriter (W : Type) where
  ccw : CountingCrcWriter W
  summaryEnd : Nat
  offsets : List SummaryOffset

namespace SummaryWriter
variable {W : Type} [Write W] [Seek W]

/-- Records one after the other. -/
def writeRecords : List Record → CountingCrcWriter W →
    Res (McapError × CountingCrcWriter W) (CountingCrcWriter W)
  | [], ccw => .ok ccw
  | r :: rest, ccw => do
      let ccw ← writeRecord ccw r
      writeRecords rest ccw

/-- One group of the summary section, if it is to be written. -/
def writeGroup (enabled : Bool) (groupOpcode : UInt8) (records : List Record)
    (s : SummaryWriter W) : Res (McapError × CountingCrcWriter W) (SummaryWriter W) :=
  if enabled then do
    let ccw ← writeRecords records s.ccw
    let (summaryEnd, ccw) ← position ccw
    pure
      { ccw
        summaryEnd
        offsets := s.offsets ++
          [{ groupOpcode
             groupStart := .ofNat s.summaryEnd
             groupLength := .ofNat (summaryEnd - s.summaryEnd) }] }
  else .ok s

/-- The statistics; they are expected to be there. -/
def writeStatistics (enabled : Bool) (stats : Option Statistics) (s : SummaryWriter W) :
    Res (McapError × CountingCrcWriter W) (SummaryWriter W) :=
  match stats with
  | some stats => s.writeGroup enabled op.STATISTICS [.statistics stats]
  | none => if enabled then .panic else .ok s

/-- The summary offsets, if they are to be written. -/
def writeOffsets (enabled : Bool) (s : SummaryWriter W) :
    Res (McapError × CountingCrcWriter W) (CountingCrcWriter W) :=
  if enabled then writeRecords (s.offsets.map .summaryOffset) s.ccw else .ok s.ccw

end SummaryWriter

/-- The channel record of a summary. -/
def Summary.channelRecord (e : UInt16 × Channel) : Record :=
  .channel
    { id := e.1
      schemaId := (e.2.schema.map Schema.id).getD 0
      topic := e.2.topic
      messageEncoding := e.2.messageEncoding
      metadata := e.2.metadata }

/-- The schema record of a summary. -/
def Summary.schemaRecord (e : UInt16 × Schema) : Record :=
  .schema { id := e.1, name := e.2.name, encoding := e.2.encoding } e.2.data

section
variable {W : Type} [Write W] [Seek W]

/-- The groups of the summary section, in their order. -/
def writeGroups (order : HashOrder) (summary : Summary) (options : WriteOptions)
    (s : SummaryWriter W) : Res (McapError × CountingCrcWriter W) (SummaryWriter W) := do
  let allSchemas := (order.schemas summary.schemas).map Summary.schemaRecord
  let allChannels := (order.channels summary.channels).map Summary.channelRecord
  let s ← s.writeGroup (options.repeatSchemas && !allSchemas.isEmpty) op.SCHEMA allSchemas
  let s ← s.writeGroup (options.repeatChannels && !allChannels.isEmpty) op.CHANNEL allChannels
  let s ← s.writeStatistics options.emitStatistics summary.stats
  let s ← s.writeGroup (options.emitChunkIndexes && !summary.chunkIndexes.isEmpty)
    op.CHUNK_INDEX (summary.chunkIndexes.map .chunkIndex)
  let s ← s.writeGroup (options.emitAttachmentIndexes && !summary.attachmentIndexes.isEmpty)
    op.ATTACHMENT_INDEX (summary.attachmentIndexes.map .attachmentIndex)
  s.writeGroup (options.emitMetadataIndexes && !summary.metadataIndexes.isEmpty)
    op.METADATA_INDEX (summary.metadataIndexes.map .metadataIndex)

/-- The end of the summary section: the summary offsets and the part of the footer that
its CRC covers. -/
def writeOffsetsAndFooter (summaryStart : Nat) (options : WriteOptions) (s : SummaryWriter W) :
    Res (McapError × CountingCrcWriter W) (CountingCrcWriter W) := do
  let ccw ← s.writeOffsets options.emitSummaryOffsets
  let summaryOffsetStart := if options.emitSummaryOffsets then s.summaryEnd else 0
  let summaryStart := if s.summaryEnd > summaryStart then summaryStart else 0
  let ccw ← write ccw (opAndLen op.FOOTER (8 + 8 + 4))
  write ccw (u64 (.ofNat summaryStart) ++ u64 (.ofNat summaryOffsetStart))

/-- A failed call on the counting writer leaves the stream under it. -/
def underCcw {α : Type} : Res (McapError × CountingCrcWriter W) α → Res (McapError × W) α
  | .ok a => .ok a
  | .err (e, ccw) => .err (e, ccw.inner)
  | .panic => .panic

/-- `write_summary_and_footer_magic`, up to the final flush. -/
def writeSummaryAndFooterMagic (order : HashOrder) (writer : W) (summary : Summary)
    (options : WriteOptions) : Res (McapError × W) W := do
  let (summaryStart, writer) ← position writer
  let ccw := CountingCrcWriter.new writer options.calculateSummarySectionCrc
  let s ← underCcw (writeGroups order summary options ⟨ccw, summaryStart, []⟩)
  let ccw ← underCcw (writeOffsetsAndFooter summaryStart options s)
  let writer ← write ccw.inner (u32 ccw.currentChecksum)
  write writer MAGIC

end

namespace Writer
variable {σ W : Type} [Encoders σ] [Write W] [Seek W]

/-- The schemas of a summary. -/
def summarySchemas (w : Writer σ W) : Option (BTreeMap UInt16 Schema) :=
  w.allSchemaIds.toList.foldlM (fun schemas (schemaId, canonicalId) => do
    let content ← w.canonicalSchemas.getByRight canonicalId
    pure (schemas.insert schemaId
      { id := schemaId, name := content.name, encoding := content.encoding, data := content.data }))
    ∅

/-- The channels of a summary. -/
def summaryChannels (w : Writer σ W) (schemas : BTreeMap UInt16 Schema) :
    Option (BTreeMap UInt16 Channel) :=
  w.allChannelIds.toList.foldlM (fun channels (channelId, canonicalId) => do
    let content ← w.canonicalChannels.getByRight canonicalId
    pure (channels.insert channelId
      { id := channelId
        topic := content.topic
        schema := schemas[content.schemaId]?
        messageEncoding := content.messageEncoding
        metadata := content.metadata }))
    ∅

/-- The statistics of a summary. -/
def statistics (w : Writer σ W) : Statistics where
  messageCount := (w.channelMessageCounts.toList.map Prod.snd).sum
  schemaCount := .ofNat w.allSchemaIds.size
  channelCount := .ofNat w.allChannelIds.size
  attachmentCount := w.attachmentCount
  metadataCount := w.metadataCount
  chunkCount := .ofNat w.chunkIndexes.length
  messageStartTime := (w.messageBounds.getD (0, 0)).1
  messageEndTime := (w.messageBounds.getD (0, 0)).2
  channelMessageCounts := w.channelMessageCounts

/-- `Writer::take_summary`. -/
def takeSummary : Exec (Writer σ W) McapError Summary := do
  let w ← Exec.get
  match w.summarySchemas with
  | none => Exec.abort
  | some schemas =>
      match w.summaryChannels schemas with
      | none => Exec.abort
      | some channels =>
          Exec.modify fun w =>
            { w with
              channelMessageCounts := ∅
              chunkIndexes := []
              attachmentIndexes := []
              metadataIndexes := [] }
          pure
            { stats := some w.statistics
              channels
              schemas
              chunkIndexes := w.chunkIndexes
              attachmentIndexes := w.attachmentIndexes
              metadataIndexes := w.metadataIndexes }

/-- What `finish` writes after the data section. -/
def writeEnd (order : HashOrder) (summary : Summary) (options : WriteOptions)
    (c : CountingCrcWriter W) :
    Res (McapError × CountingCrcWriter W) (Unit × CountingCrcWriter W) :=
  let written : Res (McapError × W) W := do
    let writer ← writeRecord c.inner (.dataEnd { dataSectionCrc := c.currentChecksum })
    writeSummaryAndFooterMagic order writer summary options
  match written with
  | .ok inner => .ok ((), { c with inner })
  | .err (e, inner) => .err (e, { c with inner })
  | .panic => .panic

end Writer

/-- `std::io::Write::flush`. -/
class Flush (W : Type) where
  flush : W → Except (IoError × W) W

instance : Flush Stream where
  flush := Stream.flush

instance {W : Type} [Flush W] : Flush (CountingCrcWriter W) where
  flush c :=
    match Flush.flush c.inner with
    | .ok inner => .ok { c with inner }
    | .error (e, inner) => .error (e, { c with inner })

namespace Writer
variable {σ W : Type} [Encoders σ] [Write W] [Seek W] [Flush W]

/-- Flush the stream. -/
def flushRaw (c : CountingCrcWriter W) :
    Res (McapError × CountingCrcWriter W) (Unit × CountingCrcWriter W) :=
  passOn ((Flush.flush c).map ((), ·))

/-- `Writer::flush`. -/
def flush : Exec (Writer σ W) McapError Unit := do
  finishChunk
  onRaw flushRaw

/-- `Writer::finish`.  A second call returns the summary of the first. -/
def finish (order : HashOrder) : Exec (Writer σ W) McapError Summary := do
  let w ← Exec.get
  match w.finishedSummary with
  | some summary => pure summary
  | none =>
      finishChunk
      let summary ← takeSummary
      Exec.modify fun w => { w with finishedSummary := some summary }
      onRaw (writeEnd order summary w.options)
      onRaw flushRaw
      pure summary

end Writer
end Mcap

import Mcap.GoRecords

/-! # The Go writer

`Writer` of `writer.go`, over a stream that takes all that is written: a call fails only by the
checks of the writer and by its compressor.  A method returns the writer it leaves behind, or the
error; after an error nothing is said of the writer.

`writeSizer` counts what goes to the file and, with `IncludeCRC`, hashes it.  The records of an
open chunk go through `countingCRCWriter` into a compressor, and what that passes on gathers in
`compressed` until `flushActiveChunk` makes a chunk of it.  The scratch buffers of the writer are
not modelled: each record is put together afresh, so that what a buffer held before is never seen.
-/
namespace Mcap
namespace Go

/-! ## Sinks -/

/-- `writeSizer` over a stream that holds `out`; with a checksum it has a `crcWriter` in
between. -/
structure WriteSizer where
  out : Bytes
  crc : Option Hasher
  size : Nat
deriving DecidableEq

namespace WriteSizer

/-- `newWriteSizer`, over an empty stream. -/
def new (calculateCRC : Bool) : WriteSizer :=
  ⟨[], if calculateCRC then some .new else none, 0⟩

/-- `Write`. -/
def write (w : WriteSizer) (p : Bytes) : WriteSizer where
  out := w.out ++ p
  crc := w.crc.map (·.update p)
  size := w.size + p.length

/-- `Checksum`. -/
def checksum (w : WriteSizer) : UInt32 :=
  match w.crc with
  | some crc => crc.finalize
  | none => 0

/-- `ResetCRC`. -/
def resetCRC (w : WriteSizer) : WriteSizer := { w with crc := w.crc.map fun _ => .new }

end WriteSizer

/-- A `ResettableWriteCloser` over the buffer of the chunk: the bytes that it passes on to the
buffer for those it is given, and at its end. -/
class ResettableWriteCloser (κ : Type) where
  write : κ → Bytes → Except Error (κ × Bytes)
  close : κ → Except Error (κ × Bytes)
  reset : κ → κ

/-- What the records of a chunk go through. -/
inductive Compressor (κ : Type)
  /-- `bufCloser`: no compression. -/
  | bufCloser
  /-- A writer of the packages `zstd` or `lz4`, or a custom one. -/
  | codec (c : κ)

namespace Compressor
variable {κ : Type} [ResettableWriteCloser κ]

/-- `Write`. -/
def write : Compressor κ → Bytes → Except Error (Compressor κ × Bytes)
  | bufCloser, p => .ok (bufCloser, p)
  | codec c, p => do
      let (c, out) ← ResettableWriteCloser.write c p
      pure (codec c, out)

/-- `Close`. -/
def close : Compressor κ → Except Error (Compressor κ × Bytes)
  | bufCloser => .ok (bufCloser, [])
  | codec c => do
      let (c, out) ← ResettableWriteCloser.close c
      pure (codec c, out)

/-- `Reset`. -/
def reset : Compressor κ → Compressor κ
  | bufCloser => bufCloser
  | codec c => codec (ResettableWriteCloser.reset c)

end Compressor

/-- `countingCRCWriter`. -/
structure CountingCRCWriter (κ : Type) where
  w : Compressor κ
  size : Nat
  crc : Hasher
  computeCRC : Bool

namespace CountingCRCWriter
variable {κ : Type} [ResettableWriteCloser κ]

/-- `newCountingCRCWriter`. -/
def new (w : Compressor κ) (computeCRC : Bool) : CountingCRCWriter κ := ⟨w, 0, .new, computeCRC⟩

/-- The writer once `p` went into its compressor, which becomes `w`. -/
def account (c : CountingCRCWriter κ) (w : Compressor κ) (p : Bytes) : CountingCRCWriter κ where
  w := w
  size := c.size + p.length
  crc := if c.computeCRC then c.crc.update p else c.crc
  computeCRC := c.computeCRC

/-- `Write`: the writer, and what goes to the buffer. -/
def write (c : CountingCRCWriter κ) (p : Bytes) : Except Error (CountingCRCWriter κ × Bytes) := do
  let (w, out) ← c.w.write p
  pure (c.account w p, out)

/-- `Close`. -/
def close (c : CountingCRCWriter κ) : Except Error (CountingCRCWriter κ × Bytes) := do
  let (w, out) ← c.w.close
  pure ({ c with w }, out)

/-- `Reset`, `ResetSize` and `ResetCRC`. -/
def reset (c : CountingCRCWriter κ) : CountingCRCWriter κ :=
  { c with w := c.w.reset, size := 0, crc := .new }

end CountingCRCWriter

/-! ## Options -/

/-- `CompressionLevel`. -/
inductive CompressionLevel
  | default
  | fastest
  | better
  | best
  /-- Any other number. -/
  | other
deriving DecidableEq

/-- `CompressionZSTD`. -/
def compressionZSTD : Bytes := utf8 "zstd"

/-- `CompressionLZ4`. -/
def compressionLZ4 : Bytes := utf8 "lz4"

/-- `CompressionNone`. -/
def compressionNone : Bytes := []

/-- `CustomCompressor`. -/
structure CustomCompressor (κ : Type) where
  compression : Bytes
  compressor : κ

/-- `WriterOptions`. -/
structure WriterOptions (κ : Type) where
  includeCRC : Bool
  chunked : Bool
  chunkSize : Int
  compression : Bytes
  compressionLevel : CompressionLevel
  skipMessageIndexing : Bool
  skipStatistics : Bool
  skipRepeatedSchemas : Bool
  skipRepeatedChannelInfos : Bool
  skipAttachmentIndex : Bool
  skipMetadataIndex : Bool
  skipChunkIndex : Bool
  skipSummaryOffsets : Bool
  overrideLibrary : Bool
  skipMagic : Bool
  compressor : Option (CustomCompressor κ)

/-- The writers of the compression packages: `zstd.NewWriter` and `lz4.NewWriter`. -/
class Packages (κ : Type) where
  zstd : CompressionLevel → Except Error κ
  lz4 : CompressionLevel → κ

/-! ## The writer -/

/-- `Writer`.  The compressor is there in a chunked file only; otherwise it is not used. -/
structure Writer (κ : Type) where
  statistics : Statistics
  chunkIndexes : List ChunkIndex
  attachmentIndexes : List AttachmentIndex
  metadataIndexes : List MetadataIndex
  channelIDs : List UInt16
  schemaIDs : List UInt16
  channels : BTreeMap UInt16 Channel
  schemas : BTreeMap UInt16 Schema
  messageIndexes : BTreeMap UInt16 MessageIndex
  w : WriteSizer
  compressed : Bytes
  compressedWriter : CountingCRCWriter κ
  currentChunkStartTime : UInt64
  currentChunkEndTime : UInt64
  currentChunkMessageCount : UInt64
  opts : WriterOptions κ
  closed : Bool

/-- `math.MaxUint64`. -/
def maxUint64 : UInt64 := 0xFFFFFFFFFFFFFFFF

/-- The statistics of an empty file. -/
def Statistics.zero : Statistics := ⟨0, 0, 0, 0, 0, 0, 0, 0, ∅⟩

/-- The compressor of a chunked file, and the compression that its chunks name. -/
def chooseCompressor {κ : Type} [ResettableWriteCloser κ] [Packages κ] (opts : WriterOptions κ) :
    Except Error (Compressor κ × Bytes) :=
  match opts.compressor with
  | some custom =>
      if custom.compression = [] then
        .error (.text "custom compressor requires compression format")
      else .ok (.codec (ResettableWriteCloser.reset custom.compressor), custom.compression)
  | none =>
      if opts.compression = compressionZSTD then do
        let zw ← Packages.zstd opts.compressionLevel
        pure (.codec zw, opts.compression)
      else if opts.compression = compressionLZ4 then
        .ok (.codec (Packages.lz4 opts.compressionLevel), opts.compression)
      else if opts.compression = compressionNone then .ok (.bufCloser, opts.compression)
      else .error (.text "unsupported compression")

/-- The chunk size of a writer: an option of 0 stands for 1 MiB. -/
def effectiveChunkSize (chunkSize : Int) : Int := if chunkSize = 0 then 1024 * 1024 else chunkSize

/-- The options as `NewWriter` leaves them. -/
def WriterOptions.adjusted {κ : Type} (opts : WriterOptions κ) (compression : Bytes) :
    WriterOptions κ :=
  { opts with compression, chunkSize := effectiveChunkSize opts.chunkSize }

/-- The writer that `NewWriter` returns. -/
def Writer.start {κ : Type} (opts : WriterOptions κ) (compressor : Compressor κ) : Writer κ where
  statistics := .zero
  chunkIndexes := []
  attachmentIndexes := []
  metadataIndexes := []
  channelIDs := []
  schemaIDs := []
  channels := ∅
  schemas := ∅
  messageIndexes := ∅
  w := if opts.skipMagic then .new opts.includeCRC else (WriteSizer.new opts.includeCRC).write MAGIC
  compressed := []
  compressedWriter := .new compressor opts.includeCRC
  currentChunkStartTime := maxUint64
  currentChunkEndTime := 0
  currentChunkMessageCount := 0
  opts := opts
  closed := false

/-- `NewWriter`, over an empty stream. -/
def newWriter {κ : Type} [ResettableWriteCloser κ] [Packages κ] (opts : WriterOptions κ) :
    Except Error (Writer κ) :=
  if opts.chunked then do
    let (compressor, compression) ← chooseCompressor opts
    pure (.start (opts.adjusted compression) compressor)
  else .ok (.start opts .bufCloser)

namespace Writer
variable {κ : Type} [ResettableWriteCloser κ]

/-! ### Records -/

/-- `writeRecord`, to the file. -/
def writeRecord (w : Writer κ) (opcode : UInt8) (data : Bytes) : Writer κ :=
  { w with w := (w.w.write (opcode :: le 8 data.length)).write data }

/-- `writeRecord`, into the open chunk. -/
def writeCompressed (w : Writer κ) (opcode : UInt8) (data : Bytes) : Except Error (Writer κ) := do
  let (c, head) ← w.compressedWriter.write (opcode :: le 8 data.length)
  let (c, tail) ← c.write data
  pure { w with compressedWriter := c, compressed := w.compressed ++ head ++ tail }

/-- A record of the data section that may lie in a chunk. -/
def writeData (w : Writer κ) (opcode : UInt8) (data : Bytes) : Except Error (Writer κ) :=
  if w.opts.chunked && !w.closed then w.writeCompressed opcode data
  else .ok (w.writeRecord opcode data)

/-- `Version`. -/
def version : String := "v1.8.0"

/-- The library of a header. -/
def headerLibrary (overrideLibrary : Bool) (library : Bytes) : Bytes :=
  if overrideLibrary then library
  else
    let own := utf8 ("mcap go " ++ version)
    if library ≠ [] ∧ library ≠ own then own ++ utf8 "; " ++ library else own

/-- `WriteHeader`. -/
def writeHeader (w : Writer κ) (header : Header) : Writer κ :=
  w.writeRecord op.HEADER
    { header with library := headerLibrary w.opts.overrideLibrary header.library }.body

/-- `AddSchema`. -/
def addSchema (w : Writer κ) (s : Schema) : Writer κ :=
  if w.schemas.contains s.id then w
  else
    { w with
      schemaIDs := w.schemaIDs ++ [s.id]
      schemas := w.schemas.insert s.id s
      statistics := { w.statistics with schemaCount := w.statistics.schemaCount + 1 } }

/-- `AddChannel`. -/
def addChannel (w : Writer κ) (c : Channel) : Writer κ :=
  if w.channels.contains c.id then w
  else
    { w with
      statistics := { w.statistics with channelCount := w.statistics.channelCount + 1 }
      channels := w.channels.insert c.id c
      channelIDs := w.channelIDs ++ [c.id] }

/-- `WriteSchema`. -/
def writeSchema (w : Writer κ) (s : Schema) :
    Except Error (Writer κ) := do
  if s.id = 0 then throw (.text "schemaID must not be zero")
  let w ← w.writeData op.SCHEMA s.body
  pure (w.addSchema s)

/-- `WriteChannel`. -/
def writeChannel (w : Writer κ) (c : Channel) :
    Except Error (Writer κ) := do
  if 0 < c.schemaID ∧ ¬ w.schemas.contains c.schemaID then throw (.text "unknown schema")
  let w ← w.writeData op.CHANNEL c.body
  pure (w.addChannel c)

/-- `WriteMessageIndex`. -/
def writeMessageIndex (w : Writer κ) (idx : MessageIndex) : Writer κ :=
  w.writeRecord op.MESSAGE_INDEX idx.body

/-- The length field of an attachment. -/
def attachmentLength (a : Attachment) : UInt64 :=
  UInt64.ofNat (1 + 8 + 8 + 8 + 4 + a.name.length + 4 + a.mediaType.length + 8) + a.dataSize + 4

/-- `WriteAttachment`. -/
def writeAttachment (w : Writer κ) (a : Attachment) : Except Error (Writer κ) := do
  let attachmentOffset := w.w.size
  let crcWriter := (Hasher.new.update a.top).update a.data
  if a.data.length ≠ a.dataSize.toNat then throw (.text "attachment content length incorrect")
  pure
    { w with
      w := (((w.w.write (op.ATTACHMENT :: u64 (attachmentLength a - 9))).write a.top).write
        a.data).write (u32 crcWriter.finalize)
      attachmentIndexes := w.attachmentIndexes ++
        [{ offset := .ofNat attachmentOffset
           length := attachmentLength a
           logTime := a.logTime
           createTime := a.createTime
           dataSize := a.dataSize
           name := a.name
           mediaType := a.mediaType }]
      statistics := { w.statistics with attachmentCount := w.statistics.attachmentCount + 1 } }

/-- `WriteMetadata`. -/
def writeMetadata (w : Writer κ) (m : Metadata) : Writer κ :=
  let metadataOffset := w.w.size
  { w.writeRecord op.METADATA m.body with
    metadataIndexes := w.metadataIndexes ++
      [{ offset := .ofNat metadataOffset
         length := .ofNat (9 + m.body.length)
         name := m.name }]
    statistics := { w.statistics with metadataCount := w.statistics.metadataCount + 1 } }

/-! ### Chunks -/

/-- The statistics once a chunk is written. -/
def coverChunk (s : Statistics) (c : Chunk) : Statistics :=
  { s with
    chunkCount := s.chunkCount + 1
    messageStartTime :=
      if s.messageStartTime = 0 ∨ c.messageStartTime < s.messageStartTime then c.messageStartTime
      else s.messageStartTime
    messageEndTime :=
      if s.messageEndTime < c.messageEndTime then c.messageEndTime else s.messageEndTime }

/-- A message index behind a chunk, unless it is empty, and where it starts. -/
def placeMessageIndex (state : Writer κ × BTreeMap UInt16 UInt64) (idx : MessageIndex) :
    Writer κ × BTreeMap UInt16 UInt64 :=
  if idx.isEmpty then state
  else (state.1.writeMessageIndex idx, state.2.insert idx.channelID (.ofNat state.1.w.size))

/-- The message indexes behind a chunk. -/
def writeMessageIndexes (w : Writer κ) (messageIndexes : List MessageIndex) :
    Writer κ × BTreeMap UInt16 UInt64 :=
  messageIndexes.foldl placeMessageIndex (w, ∅)

/-- `WriteChunkWithIndexes`. -/
def writeChunkWithIndexes (w : Writer κ) (c : Chunk) (messageIndexes : List MessageIndex) :
    Writer κ :=
  if c.uncompressedSize = 0 then w
  else
    let chunkStartOffset := w.w.size
    let head := op.CHUNK :: (le 8 (c.top.length + c.records.length) ++ c.top)
    let w := { w with w := (w.w.write head).write c.records }
    let chunkEndOffset := w.w.size
    let (w, messageIndexOffsets) := w.writeMessageIndexes
      (if w.opts.skipMessageIndexing then [] else messageIndexes)
    { w with
      chunkIndexes := w.chunkIndexes ++
        [{ messageStartTime := c.messageStartTime
           messageEndTime := c.messageEndTime
           chunkStartOffset := .ofNat chunkStartOffset
           chunkLength := .ofNat (chunkEndOffset - chunkStartOffset)
           messageIndexOffsets := messageIndexOffsets
           messageIndexLength := .ofNat (w.w.size - chunkEndOffset)
           compression := c.compression
           compressedSize := .ofNat c.records.length
           uncompressedSize := .ofNat c.uncompressedSize }]
      statistics := coverChunk w.statistics c }

/-- The message indexes of the open chunk that have an entry, in the order of the channels. -/
def activeIndexes (w : Writer κ) : List MessageIndex :=
  if w.opts.skipMessageIndexing then []
  else w.channelIDs.filterMap fun chanID => w.messageIndexes[chanID]?.filter fun idx => !idx.isEmpty

/-- The open chunk as a record, with the rest of its compressed bytes. -/
def activeChunk (w : Writer κ) (tail : Bytes) : Chunk where
  messageStartTime := if w.currentChunkMessageCount ≠ 0 then w.currentChunkStartTime else 0
  messageEndTime := if w.currentChunkMessageCount ≠ 0 then w.currentChunkEndTime else 0
  uncompressedSize := w.compressedWriter.size
  uncompressedCRC := w.compressedWriter.crc.finalize
  compression := w.opts.compression
  records := w.compressed ++ tail

/-- `flushActiveChunk`. -/
def flushActiveChunk (w : Writer κ) : Except Error (Writer κ) :=
  if w.compressedWriter.size = 0 then .ok w
  else do
    let (compressedWriter, tail) ← w.compressedWriter.close
    let chunk := w.activeChunk tail
    let w := { w with compressed := [], compressedWriter := compressedWriter.reset }
    let w := w.writeChunkWithIndexes chunk w.activeIndexes
    pure
      { w with
        messageIndexes := w.messageIndexes.map fun _ idx => idx.reset
        currentChunkStartTime := maxUint64
        currentChunkEndTime := 0
        currentChunkMessageCount := 0 }

/-! ### Messages -/

/-- A message is counted. -/
def countMessage (w : Writer κ) (m : Message) : Writer κ :=
  { w with statistics :=
    { w.statistics with
      channelMessageCounts := w.statistics.channelMessageCounts.insert m.channelID
        (w.statistics.channelMessageCounts.getD m.channelID 0 + 1)
      messageCount := w.statistics.messageCount + 1 } }

/-- A message is entered in the index of its channel. -/
def indexMessage (w : Writer κ) (m : Message) : Writer κ :=
  let idx := w.messageIndexes.getD m.channelID ⟨m.channelID, [], 0⟩
  let idx := idx.add m.logTime (.ofNat w.compressedWriter.size)
  { w with messageIndexes := w.messageIndexes.insert m.channelID idx }

/-- The time range of the open chunk covers a message. -/
def coverMessage (w : Writer κ) (m : Message) : Writer κ :=
  { w with
    currentChunkMessageCount := w.currentChunkMessageCount + 1
    currentChunkEndTime :=
      if w.currentChunkEndTime < m.logTime then m.logTime else w.currentChunkEndTime
    currentChunkStartTime :=
      if m.logTime < w.currentChunkStartTime then m.logTime else w.currentChunkStartTime }

/-- The time range of the file covers a message. -/
def timeMessage (w : Writer κ) (m : Message) : Writer κ :=
  { w with statistics :=
    { w.statistics with
      messageEndTime :=
        if w.statistics.messageEndTime < m.logTime then m.logTime
        else w.statistics.messageEndTime
      messageStartTime :=
        if m.logTime < w.statistics.messageStartTime ∨ w.statistics.messageCount ≤ 1 then
          m.logTime
        else w.statistics.messageStartTime } }

/-- The record of a message, and the flush of the open chunk once it is over its size. -/
def writeMessageRecord (w : Writer κ) (m : Message) : Except Error (Writer κ) :=
  if w.opts.chunked && !w.closed then do
    let w ← (w.indexMessage m).writeCompressed op.MESSAGE m.body
    let w := w.coverMessage m
    if w.opts.chunkSize < w.compressedWriter.size then w.flushActiveChunk else .ok w
  else .ok (w.writeRecord op.MESSAGE m.body)

/-- `WriteMessage`. -/
def writeMessage (w : Writer κ) (m : Message) : Except Error (Writer κ) := do
  if ¬ w.channels.contains m.channelID then
    throw (.text ("unrecognized channel " ++ toString m.channelID))
  let w ← (w.countMessage m).writeMessageRecord m
  pure (w.timeMessage m)

/-! ### The summary section -/

/-- `WriteAttachmentIndex`. -/
def writeAttachmentIndex (w : Writer κ) (idx : AttachmentIndex) : Writer κ :=
  if w.opts.skipAttachmentIndex then w else w.writeRecord op.ATTACHMENT_INDEX idx.body

/-- `WriteStatistics`. -/
def writeStatistics (w : Writer κ) (s : Statistics) : Writer κ :=
  if w.opts.skipStatistics then w else w.writeRecord op.STATISTICS (s.body w.channelIDs)

/-- `WriteMetadataIndex`. -/
def writeMetadataIndex (w : Writer κ) (idx : MetadataIndex) : Writer κ :=
  w.writeRecord op.METADATA_INDEX idx.body

/-- `WriteSummaryOffset`. -/
def writeSummaryOffset (w : Writer κ) (s : SummaryOffset) : Writer κ :=
  if w.opts.skipSummaryOffsets then w else w.writeRecord op.SUMMARY_OFFSET s.body

/-- `WriteDataEnd`. -/
def writeDataEnd (w : Writer κ) (e : DataEnd) : Writer κ := w.writeRecord op.DATA_END e.body

/-- `WriteChunkIndex`. -/
def writeChunkIndex (w : Writer κ) (idx : ChunkIndex) : Writer κ :=
  w.writeRecord op.CHUNK_INDEX (idx.body w.channelIDs)

/-- A group of summary records, if it is to be written, and its offset record. -/
def writeGroup (present : Bool) (groupOpcode : UInt8)
    (write : Writer κ → Except Error (Writer κ)) (state : Writer κ × List SummaryOffset) :
    Except Error (Writer κ × List SummaryOffset) :=
  if present then do
    let groupStart := state.1.w.size
    let w ← write state.1
    pure (w, state.2 ++
      [{ groupOpcode, groupStart := .ofNat groupStart,
         groupLength := .ofNat (w.w.size - groupStart) }])
  else .ok state

/-- The error of a call, with a text in front of it. -/
def context {α : Type} (s : String) : Except Error α → Except Error α := Except.mapError (.wrapped s)

/-- Write what is found for an id. -/
def writeKnown {α : Type} (find : UInt16 → Option α) (write : Writer κ → α → Except Error (Writer κ))
    (w : Writer κ) (id : UInt16) : Except Error (Writer κ) :=
  match find id with
  | some x => write w x
  | none => .ok w

/-- The records of the schemas in the summary section. -/
def writeSchemas (w : Writer κ) : Except Error (Writer κ) :=
  w.schemaIDs.foldlM (writeKnown (fun id => w.schemas[id]?) fun w' schema =>
    context "failed to write schema" (w'.writeSchema schema)) w

/-- The records of the channels in the summary section. -/
def writeChannels (w : Writer κ) : Except Error (Writer κ) :=
  w.channelIDs.foldlM (writeKnown (fun id => w.channels[id]?) fun w' channelInfo =>
    context "failed to write channel info" (w'.writeChannel channelInfo)) w

/-- `writeSummarySection`. -/
def writeSummarySection (w : Writer κ) :
    Except Error (Writer κ × List SummaryOffset) := do
  let s ← writeGroup (!w.opts.skipRepeatedSchemas && 0 < w.schemas.size) op.SCHEMA writeSchemas
    (w, [])
  let s ← writeGroup (!w.opts.skipRepeatedChannelInfos && 0 < w.channels.size) op.CHANNEL
    writeChannels s
  let s ← writeGroup (!w.opts.skipStatistics) op.STATISTICS
    (fun w => .ok (w.writeStatistics w.statistics)) s
  let s ← writeGroup (!w.opts.skipChunkIndex && !w.chunkIndexes.isEmpty) op.CHUNK_INDEX
    (fun w => .ok (w.chunkIndexes.foldl writeChunkIndex w)) s
  let s ← writeGroup (!w.opts.skipAttachmentIndex && !w.attachmentIndexes.isEmpty)
    op.ATTACHMENT_INDEX (fun w => .ok (w.attachmentIndexes.foldl writeAttachmentIndex w)) s
  writeGroup (!w.opts.skipMetadataIndex && !w.metadataIndexes.isEmpty) op.METADATA_INDEX
    (fun w => .ok (w.metadataIndexes.foldl writeMetadataIndex w)) s

/-- `WriteFooter`: the checksum covers the record up to it. -/
def writeFooter (w : Writer κ) (summaryStart summaryOffsetStart : UInt64) : Writer κ :=
  let head := op.FOOTER :: (le 8 (8 + 8 + 4) ++ (u64 summaryStart ++ u64 summaryOffsetStart))
  let w := { w with w := w.w.write head }
  { w with w := w.w.write (u32 w.w.checksum) }

/-- The end of the data section: from here on the checksum is that of the summary section. -/
def endData (w : Writer κ) : Writer κ :=
  let w := { w with closed := true }
  let w := w.writeDataEnd ⟨w.w.checksum⟩
  { w with w := w.w.resetCRC }

/-- The footer and the magic behind the summary records. -/
def endFile (w : Writer κ) (summarySectionStart summaryOffsetStart : Nat) : Writer κ :=
  let w := w.writeFooter (.ofNat summarySectionStart) (.ofNat summaryOffsetStart)
  { w with w := w.w.write MAGIC }

/-- `Close`, behind the flush of the open chunk. -/
def closeFlushed (w : Writer κ) : Except Error (Writer κ) := do
  let w := w.endData
  let summarySectionStart := w.w.size
  let (w, summaryOffsets) ← context "failed to write summary section" w.writeSummarySection
  let summarySectionStart := if summaryOffsets.isEmpty then 0 else summarySectionStart
  let summaryOffsetStart := if w.opts.skipSummaryOffsets then 0 else w.w.size
  let w := if w.opts.skipSummaryOffsets then w else summaryOffsets.foldl writeSummaryOffset w
  pure (w.endFile summarySectionStart summaryOffsetStart)

/-- The open chunk is flushed, if there are chunks. -/
def closeChunk (w : Writer κ) : Except Error (Writer κ) :=
  if w.opts.chunked then context "failed to flush active chunks" w.flushActiveChunk else .ok w

/-- `Close`. -/
def close (w : Writer κ) : Except Error (Writer κ) := do
  let w ← w.closeChunk
  w.closeFlushed

end Writer

/-! ## Calls -/

/-- The calls that write the data section. -/
inductive Call
  | schema (s : Schema)
  | channel (c : Channel)
  | message (m : Message)
  | attachment (a : Attachment)
  | metadata (m : Metadata)
deriving DecidableEq

/-- Run a call. -/
def Call.run {κ : Type} [ResettableWriteCloser κ] : Call → Writer κ → Except Error (Writer κ)
  | schema s, w => w.writeSchema s
  | channel c, w => w.writeChannel c
  | message m, w => w.writeMessage m
  | attachment a, w => w.writeAttachment a
  | metadata m, w => .ok (w.writeMetadata m)

/-- A file: a writer is made, the header is written, the calls are made one after the other, and
the writer is closed. -/
def writeFile {κ : Type} [ResettableWriteCloser κ] [Packages κ] (opts : WriterOptions κ)
    (header : Header) (calls : List Call) : Except Error (Writer κ) := do
  let w ← newWriter opts
  let w ← calls.foldlM (fun w call => call.run w) (w.writeHeader header)
  w.close

end Go
end Mcap

import Mcap.PyWriting
import Mcap.Crc32

/-! # The writer of the Python library

`_chunk_builder.py` and `writer.py`.  Records wait in the record builder of a writer until it is
flushed, or in its chunk builder until the chunk is closed.  A method that raises an exception leaves
no state: runs are of methods that return.

The output is a stream of bytes that is empty at first, and the modules for compression are
functions, if they are installed.
-/
namespace Mcap
namespace Py

/-- `CompressionType`. -/
inductive CompressionType
  | none
  | lz4
  | zstd
deriving DecidableEq

/-- `IndexType`, a set of flags. -/
structure IndexType where
  attachment : Bool
  chunk : Bool
  message : Bool
  metadata : Bool
deriving DecidableEq

/-- The arguments of `Writer`, but for the output. -/
structure WriterOptions where
  chunkSize : Int
  compression : CompressionType
  indexTypes : IndexType
  repeatChannels : Bool
  repeatSchemas : Bool
  useChunking : Bool
  useStatistics : Bool
  useSummaryOffsets : Bool
  enableCrcs : Bool
  enableDataCrcs : Bool
deriving DecidableEq

/-- The modules `lz4.frame` and `zstandard`, if they are installed. -/
structure Compressors where
  lz4 : Option (Bytes → Bytes)
  zstd : Option (Bytes → Bytes)

/-- `zlib.crc32`, from a checksum on. -/
def zlibCrc32 (data : Bytes) (value : UInt32) : UInt32 := ~~~ data.foldl crcByte (~~~ value)

/-! ## Chunks -/

structure ChunkBuilder where
  messageEndTime : Nat
  messageIndices : Dict Nat MessageIndex
  messageStartTime : Nat
  recordWriter : RecordBuilder
  numMessages : Nat

namespace ChunkBuilder

def new : ChunkBuilder := ⟨0, ∅, 0, .new, 0⟩

def count (c : ChunkBuilder) : Nat := c.recordWriter.count

def addChannel (c : ChunkBuilder) (channel : Channel) : Except PyError ChunkBuilder := do
  let (_, recordWriter) ← channel.write c.recordWriter
  pure { c with recordWriter }

def addSchema (c : ChunkBuilder) (schema : Schema) : Except PyError ChunkBuilder := do
  let (_, recordWriter) ← schema.write c.recordWriter
  pure { c with recordWriter }

/-- The index of a channel gets an entry, and is made if there is none. -/
def addEntry (messageIndices : Dict Nat MessageIndex) (channelId : Nat) (entry : Nat × Nat) :
    Dict Nat MessageIndex :=
  match messageIndices.get? channelId with
  | some index => messageIndices.set channelId { index with records := index.records ++ [entry] }
  | none => messageIndices.set channelId ⟨channelId, [entry]⟩

def addMessage (c : ChunkBuilder) (message : Message) : Except PyError ChunkBuilder := do
  let messageStartTime :=
    if c.numMessages = 0 then message.logTime else min c.messageStartTime message.logTime
  let messageEndTime := max c.messageEndTime message.logTime
  let messageIndices := addEntry c.messageIndices message.channelId (message.logTime, c.count)
  let (_, recordWriter) ← message.write c.recordWriter
  pure
    { messageEndTime, messageIndices, messageStartTime, recordWriter,
      numMessages := c.numMessages + 1 }

/-- `reset`; the records are gone with `end`. -/
def reset (c : ChunkBuilder) : ChunkBuilder :=
  ⟨0, ∅, 0, c.recordWriter.finish.2, 0⟩

end ChunkBuilder

/-! ## The writer -/

structure Writer where
  stream : Bytes
  recordBuilder : RecordBuilder
  attachmentIndexes : List AttachmentIndex
  metadataIndexes : List MetadataIndex
  channels : Dict Nat Channel
  chunkBuilder : Option ChunkBuilder
  chunkIndices : List ChunkIndex
  schemas : Dict Nat Schema
  statistics : Statistics
  dataSectionCrc : UInt32

/-- A method of a writer. -/
abbrev Writing := StateT Writer (Except PyError)

/-- `Writer.__init__`. -/
def Writer.new (opts : WriterOptions) (C : Compressors) : Except PyError Writer :=
  let w : Writer :=
    { stream := []
      recordBuilder := .new
      attachmentIndexes := []
      metadataIndexes := []
      channels := ∅
      chunkBuilder := if opts.useChunking then some .new else none
      chunkIndices := []
      schemas := ∅
      statistics := ⟨0, 0, ∅, 0, 0, 0, 0, 0, 0⟩
      dataSectionCrc := 0 }
  match opts.compression with
  | .none => pure w
  | .lz4 => if C.lz4.isNone then throw (.unsupportedCompressionError "lz4") else pure w
  | .zstd => if C.zstd.isNone then throw (.unsupportedCompressionError "zstandard") else pure w

/-- The name of a compression and the compressed data. -/
def compress (C : Compressors) (compression : CompressionType) (data : Bytes) : String × Bytes :=
  match compression with
  | .none => ("", data)
  | .lz4 => ("lz4", (C.lz4.getD id) data)
  | .zstd => ("zstd", (C.zstd.getD id) data)

namespace Writer
variable (opts : WriterOptions) (C : Compressors)

/-- A record is written to the record builder. -/
def build (b : Building) : Writing Unit := fun w => do
  let (_, recordBuilder) ← b w.recordBuilder
  pure ((), { w with recordBuilder })

/-- The writer behind a flush of its record builder. -/
def flushed (w : Writer) : Writer :=
  let (data, recordBuilder) := w.recordBuilder.finish
  { w with
    recordBuilder
    dataSectionCrc :=
      if opts.enableDataCrcs then zlibCrc32 data w.dataSectionCrc else w.dataSectionCrc
    stream := w.stream ++ data }

/-- `Writer.__flush`. -/
def flush : Writing Unit := modify (flushed opts)

/-- The records of the message indexes are written, and their positions noted. -/
def writeMessageIndexes (start : Nat) : List (Nat × MessageIndex) → Dict Nat Nat →
    RecordBuilder → Except PyError (Dict Nat Nat × RecordBuilder)
  | [], offsets, b => pure (offsets, b)
  | (id, index) :: rest, offsets, b => do
      let (_, b') ← index.write b
      writeMessageIndexes start rest (offsets.set id (start + b.count)) b'

/-- The records of message indexes, if there are to be any. -/
def indexRecords (c : ChunkBuilder) (start : Nat) (b : RecordBuilder) :
    Except PyError (Dict Nat Nat × RecordBuilder) :=
  if opts.indexTypes.message then writeMessageIndexes start c.messageIndices.items ∅ b
  else pure (∅, b)

/-- The chunk of a chunk builder. -/
def chunkOf (c : ChunkBuilder) : Chunk :=
  let chunkData := c.recordWriter.finish.1
  let (compression, compressedData) := compress C opts.compression chunkData
  { compression
    data := compressedData
    messageStartTime := c.messageStartTime
    messageEndTime := c.messageEndTime
    uncompressedCrc := if opts.enableCrcs then (crc32 chunkData).toNat else 0
    uncompressedSize := chunkData.length }

/-- A chunk of messages is written with the indexes behind it. -/
def closeChunk (c : ChunkBuilder) : Writing Unit := do
  modify fun w => { w with
    statistics := { w.statistics with chunkCount := w.statistics.chunkCount + 1 } }
  let chunk := chunkOf opts C c
  flush opts
  let chunkStartOffset := (← get).stream.length
  build chunk.write
  let chunkLength := (← get).recordBuilder.count
  flush opts
  let messageIndexStartOffset := (← get).stream.length
  let (messageIndexOffsets, recordBuilder) ←
    indexRecords opts c messageIndexStartOffset (← get).recordBuilder
  modify fun w => { w with recordBuilder }
  flush opts
  modify fun w => { w with
    chunkIndices := w.chunkIndices ++
      [{ messageStartTime := chunk.messageStartTime
         messageEndTime := chunk.messageEndTime
         chunkStartOffset
         chunkLength
         messageIndexOffsets
         messageIndexLength := recordBuilder.count
         compression := chunk.compression
         compressedSize := chunk.data.length
         uncompressedSize := chunk.uncompressedSize }]
    chunkBuilder := some c.reset }

/-- `Writer.__finalize_chunk`. -/
def finalizeChunk : Writing Unit := do
  match (← get).chunkBuilder with
  | none => pure ()
  | some c => if c.numMessages = 0 then pure () else closeChunk opts C c

/-- `Writer.__maybe_finalize_chunk`. -/
def maybeFinalizeChunk : Writing Unit := do
  match (← get).chunkBuilder with
  | none => pure ()
  | some c => if opts.chunkSize < c.count then finalizeChunk opts C else pure ()

/-- A record is added to the chunk builder, if there is one, and is written otherwise. -/
def place (add : ChunkBuilder → Except PyError ChunkBuilder) (write : Writing Unit) :
    Writing Unit := do
  match (← get).chunkBuilder with
  | some c =>
      let c ← add c
      modify fun w => { w with chunkBuilder := some c }
      maybeFinalizeChunk opts C
  | none => write

/-- The index of an attachment that is in the record builder, if there is to be one. -/
def noteAttachment (offset : Nat) (attachment : Attachment) (w : Writer) : Writer :=
  if opts.indexTypes.attachment then
    { w with
      attachmentIndexes := w.attachmentIndexes ++
        [{ offset
           length := w.recordBuilder.count
           createTime := attachment.createTime
           logTime := attachment.logTime
           dataSize := attachment.data.length
           name := attachment.name
           mediaType := attachment.mediaType }] }
  else w

/-- The index of a metadata record that is in the record builder, if there is to be one. -/
def noteMetadata (offset : Nat) (name : String) (w : Writer) : Writer :=
  if opts.indexTypes.metadata then
    { w with
      metadataIndexes := w.metadataIndexes ++ [{ offset, length := w.recordBuilder.count, name }] }
  else w

def addAttachment (createTime logTime : Nat) (name mediaType : String) (data : Bytes) :
    Writing Unit := do
  flush opts
  let offset := (← get).stream.length
  modify fun w => { w with
    statistics := { w.statistics with attachmentCount := w.statistics.attachmentCount + 1 } }
  let attachment : Attachment := { createTime, logTime, name, mediaType, data }
  build attachment.write
  modify (noteAttachment opts offset attachment)
  flush opts

/-- The statistics with a message. -/
def countMessage (s : Statistics) (message : Message) : Statistics :=
  { s with
    messageStartTime :=
      if s.messageCount = 0 then message.logTime else min message.logTime s.messageStartTime
    messageEndTime := max message.logTime s.messageEndTime
    channelMessageCounts := s.channelMessageCounts.set message.channelId
      ((s.channelMessageCounts.get? message.channelId).getD 0 + 1)
    messageCount := s.messageCount + 1 }

def addMessage (channelId logTime : Nat) (data : Bytes) (publishTime sequence : Nat) :
    Writing Unit := do
  let message : Message := { channelId, logTime, data, publishTime, sequence }
  modify fun w => { w with statistics := countMessage w.statistics message }
  place opts C (·.addMessage message) do
    build message.write
    flush opts

def addMetadata (name : String) (data : Dict String String) : Writing Unit := do
  flush opts
  let offset := (← get).stream.length
  modify fun w => { w with
    statistics := { w.statistics with metadataCount := w.statistics.metadataCount + 1 } }
  let metadata : Metadata := { name, metadata := data }
  build metadata.write
  modify (noteMetadata opts offset name)
  flush opts

def registerChannel (topic messageEncoding : String) (schemaId : Nat)
    (metadata : Dict String String) : Writing Nat := do
  let channelId := (← get).channels.items.length + 1
  let channel : Channel := { id := channelId, topic, messageEncoding, schemaId, metadata }
  modify fun w => { w with
    channels := w.channels.set channelId channel
    statistics := { w.statistics with channelCount := w.statistics.channelCount + 1 } }
  place opts C (·.addChannel channel) (build channel.write)
  pure channelId

def registerSchema (name encoding : String) (data : Bytes) : Writing Nat := do
  let schemaId := (← get).schemas.items.length + 1
  let schema : Schema := { id := schemaId, data, encoding, name }
  modify fun w => { w with
    schemas := w.schemas.set schemaId schema
    statistics := { w.statistics with schemaCount := w.statistics.schemaCount + 1 } }
  place opts C (·.addSchema schema) (build schema.write)
  pure schemaId

def start (profile library : String) : Writing Unit := do
  modify fun w => { w with
    stream := w.stream ++ MAGIC
    dataSectionCrc :=
      if opts.enableDataCrcs then zlibCrc32 MAGIC w.dataSectionCrc else w.dataSectionCrc }
  build (Header.write ⟨profile, library⟩)
  flush opts

/-! ## The summary -/

/-- A group of the summary: whether it is written, the opcode and the records. -/
structure SummaryGroup where
  enabled : Bool
  opcode : UInt8
  records : List McapRecord

/-- The groups of the summary. -/
def summaryGroups (w : Writer) : List SummaryGroup :=
  [⟨opts.repeatSchemas, op.SCHEMA, w.schemas.values.map .schema⟩,
    ⟨opts.repeatChannels, op.CHANNEL, w.channels.values.map .channel⟩,
    ⟨opts.useStatistics, op.STATISTICS, [.statistics w.statistics]⟩,
    ⟨opts.indexTypes.chunk, op.CHUNK_INDEX, w.chunkIndices.map .chunkIndex⟩,
    ⟨opts.indexTypes.attachment, op.ATTACHMENT_INDEX, w.attachmentIndexes.map .attachmentIndex⟩,
    ⟨opts.indexTypes.metadata, op.METADATA_INDEX, w.metadataIndexes.map .metadataIndex⟩]

/-- The groups are written one after the other, and their offsets noted. -/
def writeGroups (summaryStart : Nat) : List SummaryGroup → List SummaryOffset → RecordBuilder →
    Except PyError (List SummaryOffset × RecordBuilder)
  | [], offsets, b => pure (offsets, b)
  | g :: groups, offsets, b =>
      if g.enabled then do
        let (_, b') ← (g.records.forM McapRecord.write : Building) b
        writeGroups summaryStart groups
          (offsets ++ [⟨g.opcode.toNat, summaryStart + b.count, b'.count - b.count⟩]) b'
      else writeGroups summaryStart groups offsets b

/-- The offsets of the groups are written, if they are to be. -/
def writeOffsets (offsets : List SummaryOffset) (b : RecordBuilder) :
    Except PyError RecordBuilder :=
  if opts.useSummaryOffsets then do
    let (_, b) ← ((offsets.map McapRecord.summaryOffset).forM McapRecord.write : Building) b
    pure b
  else pure b

/-- The checksum of the summary and the fields of the footer, if there is to be one. -/
def summaryCrc (summaryData : Bytes) (summaryStart summaryOffsetStart : Nat) :
    Except PyError UInt32 :=
  if opts.enableCrcs then do
    let opcode ← pack 1 op.FOOTER.toNat
    let length ← pack 8 (8 + 8 + 4)
    let start ← pack 8 summaryStart
    let offsetStart ← pack 8 summaryOffsetStart
    pure (zlibCrc32 (opcode ++ length ++ start ++ offsetStart) (crc32 summaryData))
  else pure 0

/-- The summary and the footer, behind the data section. -/
def writeSummary : Writing Unit := do
  let w ← get
  let summaryStart := w.stream.length
  let (offsets, b) ← writeGroups summaryStart (summaryGroups opts w) [] .new
  let summaryOffsetStart := if opts.useSummaryOffsets then summaryStart + b.count else 0
  let b ← writeOffsets opts offsets b
  let summaryData := b.finish.1
  let summaryStart := if summaryData.length = 0 then 0 else summaryStart
  let summaryCrc ← summaryCrc opts summaryData summaryStart summaryOffsetStart
  modify fun w => { w with stream := w.stream ++ summaryData }
  build (Footer.write ⟨summaryStart, summaryOffsetStart, summaryCrc.toNat⟩)
  flush opts
  modify fun w => { w with stream := w.stream ++ MAGIC }

def finish : Writing Unit := do
  finalizeChunk opts C
  build (DataEnd.write ⟨(← get).dataSectionCrc.toNat⟩)
  flush opts
  writeSummary opts

end Writer

/-! ## Runs -/

/-- A call of a method between `start` and `finish`. -/
inductive Call
  | registerSchema (name encoding : String) (data : Bytes)
  | registerChannel (topic messageEncoding : String) (schemaId : Nat)
      (metadata : Dict String String)
  | addMessage (channelId logTime : Nat) (data : Bytes) (publishTime sequence : Nat)
  | addAttachment (createTime logTime : Nat) (name mediaType : String) (data : Bytes)
  | addMetadata (name : String) (data : Dict String String)
deriving DecidableEq

section
variable (opts : WriterOptions) (C : Compressors)

def Call.apply : Call → Writing Unit
  | .registerSchema name encoding data => do
      let _ ← Writer.registerSchema opts C name encoding data
      pure ()
  | .registerChannel topic messageEncoding schemaId metadata => do
      let _ ← Writer.registerChannel opts C topic messageEncoding schemaId metadata
      pure ()
  | .addMessage channelId logTime data publishTime sequence =>
      Writer.addMessage opts C channelId logTime data publishTime sequence
  | .addAttachment createTime logTime name mediaType data =>
      Writer.addAttachment opts createTime logTime name mediaType data
  | .addMetadata name data => Writer.addMetadata opts name data

/-- The state of a writer behind its calls, which all return. -/
def Writer.after (profile library : String) (calls : List Call) : Except PyError Writer := do
  let w ← Writer.new opts C
  let (_, w) ← Writer.start opts profile library w
  let (_, w) ← (calls.forM (Call.apply opts C) : Writing Unit) w
  pure w

end

end Py
end Mcap

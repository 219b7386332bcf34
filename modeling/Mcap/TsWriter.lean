import Mcap.TsBuilder

/-! # The writer of the TypeScript library

`McapWriter.ts` and `ChunkBuilder.ts`.  Schemas and channels are registered, and written with the first
message that needs them: to the open chunk, or to the record builder if there are no chunks.  An
attachment or a metadata record is written out at once, with whatever waits in the record builder.

`addMessage` throws for a channel or a schema that has not been registered, when the message has been
counted.

What is written to the writable is kept in `writable`, and its position is the number of these bytes.
Numbers and bigints are natural numbers; the size of a chunk may be any integer.
-/
namespace Mcap
namespace Ts

open McapRecordBuilder

/-! ## Checksums -/

def crc32Init : UInt32 := 0xFFFFFFFF

def crc32Update (prev : UInt32) (data : Bytes) : UInt32 := data.foldl crcByte prev

def crc32Final (prev : UInt32) : UInt32 := ~~~ prev

/-! ## Options and calls -/

/-- `McapWriterOptions`, without the writable. -/
structure McapWriterOptions where
  useStatistics : Bool := true
  useSummaryOffsets : Bool := true
  useChunks : Bool := true
  repeatSchemas : Bool := true
  repeatChannels : Bool := true
  useAttachmentIndex : Bool := true
  useMetadataIndex : Bool := true
  useMessageIndex : Bool := true
  useChunkIndex : Bool := true
  startChannelId : Nat := 0
  chunkSize : Int := 1024 * 1024
  compressChunk : Option (Bytes → String × Bytes) := none

/-- A schema without its id. -/
structure SchemaInfo where
  name : String
  encoding : String
  data : Bytes

/-- A channel without its id. -/
structure ChannelInfo where
  schemaId : Nat
  topic : String
  messageEncoding : String
  metadata : Dict String String

/-- What a writer throws. -/
inductive McapWriterError
  | cannotStart
  | missingChannel (id : Nat)
  | missingSchema (id : Nat)
deriving DecidableEq

/-! ## Chunks -/

structure ChunkBuilder where
  recordWriter : McapRecordBuilder
  messageIndices : Option (Dict Nat MessageIndex)
  totalMessageCount : Nat
  messageStartTime : Nat
  messageEndTime : Nat

namespace ChunkBuilder

/-- The constructor. -/
def new (useMessageIndex : Bool) : ChunkBuilder where
  recordWriter := .new
  messageIndices := if useMessageIndex then some ∅ else none
  totalMessageCount := 0
  messageStartTime := 0
  messageEndTime := 0

def numMessages (c : ChunkBuilder) : Nat := c.totalMessageCount

def buffer (c : ChunkBuilder) : Bytes := c.recordWriter.buffer

def byteLength (c : ChunkBuilder) : Nat := c.recordWriter.length

def indices (c : ChunkBuilder) : List MessageIndex :=
  match c.messageIndices with
  | some messageIndices => messageIndices.values
  | none => []

def addSchema (schema : Schema) (c : ChunkBuilder) : ChunkBuilder :=
  { c with recordWriter := (writeSchema schema c.recordWriter).1 }

def addChannel (info : Channel) (c : ChunkBuilder) : ChunkBuilder :=
  { c with
    messageIndices := c.messageIndices.map fun messageIndices =>
      if (messageIndices.get? info.id).isNone then
        messageIndices.set info.id { channelId := info.id, records := [] }
      else messageIndices
    recordWriter := (writeChannel info c.recordWriter).1 }

def addMessage (message : Message) (c : ChunkBuilder) : ChunkBuilder where
  messageStartTime :=
    if c.totalMessageCount = 0 ∨ message.logTime < c.messageStartTime then message.logTime
    else c.messageStartTime
  messageEndTime :=
    if c.totalMessageCount = 0 ∨ c.messageEndTime < message.logTime then message.logTime
    else c.messageEndTime
  messageIndices := c.messageIndices.map fun messageIndices =>
    let records := match messageIndices.get? message.channelId with
      | some messageIndex => messageIndex.records
      | none => []
    messageIndices.set message.channelId
      { channelId := message.channelId
        records := records ++ [(message.logTime, c.recordWriter.length)] }
  totalMessageCount := c.totalMessageCount + 1
  recordWriter := writeMessage message c.recordWriter

def reset (c : ChunkBuilder) : ChunkBuilder where
  messageStartTime := 0
  messageEndTime := 0
  totalMessageCount := 0
  messageIndices := c.messageIndices.map fun _ => ∅
  recordWriter := c.recordWriter.reset

end ChunkBuilder

/-! ## The writer -/

structure McapWriter where
  nextChannelId : Nat
  nextSchemaId : Nat
  writable : Bytes
  recordWriter : McapRecordBuilder
  schemas : Dict Nat Schema
  channels : Dict Nat Channel
  writtenSchemaIds : List Nat
  writtenChannelIds : List Nat
  chunkBuilder : Option ChunkBuilder
  dataSectionCrc : Option UInt32
  statistics : Option Statistics
  appendMode : Bool
  chunkIndices : Option (List ChunkIndex)
  attachmentIndices : Option (List AttachmentIndex)
  metadataIndices : Option (List MetadataIndex)

/-- The statistics of nothing. -/
def Statistics.zero : Statistics where
  messageCount := 0
  schemaCount := 0
  channelCount := 0
  attachmentCount := 0
  metadataCount := 0
  chunkCount := 0
  messageStartTime := 0
  messageEndTime := 0
  channelMessageCounts := ∅

/-- The statistics with one more message. -/
def Statistics.addMessage (message : Message) (s : Statistics) : Statistics :=
  { s with
    messageStartTime :=
      if s.messageCount = 0 ∨ message.logTime < s.messageStartTime then message.logTime
      else s.messageStartTime
    messageEndTime :=
      if s.messageCount = 0 ∨ s.messageEndTime < message.logTime then message.logTime
      else s.messageEndTime
    channelMessageCounts := s.channelMessageCounts.set message.channelId
      ((s.channelMessageCounts.get? message.channelId).getD 0 + 1)
    messageCount := s.messageCount + 1 }

namespace McapWriter

/-- The constructor. -/
def new (options : McapWriterOptions) : McapWriter where
  nextChannelId := options.startChannelId
  nextSchemaId := 1
  writable := []
  recordWriter := .new
  schemas := ∅
  channels := ∅
  writtenSchemaIds := []
  writtenChannelIds := []
  chunkBuilder := if options.useChunks then some (.new options.useMessageIndex) else none
  dataSectionCrc := none
  statistics := if options.useStatistics then some .zero else none
  appendMode := false
  chunkIndices := if options.useChunkIndex then some [] else none
  attachmentIndices := if options.useAttachmentIndex then some [] else none
  metadataIndices := if options.useMetadataIndex then some [] else none

/-- `writable.position()`. -/
def position (w : McapWriter) : Nat := w.writable.length

/-- The record builder is written out. -/
def flush (w : McapWriter) : McapWriter :=
  { w with
    writable := w.writable ++ w.recordWriter.buffer
    recordWriter := w.recordWriter.reset }

/-- The record builder is written out, and added to the checksum of the data section. -/
def flushData (w : McapWriter) : McapWriter :=
  flush { w with
    dataSectionCrc := w.dataSectionCrc.map fun crc => crc32Update crc w.recordWriter.buffer }

def start (header : Header) (w : McapWriter) : Except McapWriterError McapWriter :=
  if w.appendMode then .error .cannotStart
  else
    let recordWriter := (writeHeader header (writeMagic w.recordWriter)).1
    .ok (flushData { w with dataSectionCrc := some crc32Init, recordWriter })

def registerSchema (info : SchemaInfo) (w : McapWriter) : Nat × McapWriter :=
  let id := w.nextSchemaId
  (id, { w with
    nextSchemaId := w.nextSchemaId + 1
    schemas := w.schemas.set id
      { id, name := info.name, encoding := info.encoding, data := info.data }
    statistics := w.statistics.map fun s => { s with schemaCount := s.schemaCount + 1 } })

def registerChannel (info : ChannelInfo) (w : McapWriter) : Nat × McapWriter :=
  let id := w.nextChannelId
  (id, { w with
    nextChannelId := w.nextChannelId + 1
    channels := w.channels.set id
      { id, schemaId := info.schemaId, topic := info.topic,
        messageEncoding := info.messageEncoding, metadata := info.metadata }
    statistics := w.statistics.map fun s => { s with channelCount := s.channelCount + 1 } })

/-- The offsets of the message indexes behind a chunk, and the builder with them. -/
def writeMessageIndices (messageIndexStart : Nat) (indices : List MessageIndex)
    (recordWriter : McapRecordBuilder) : McapRecordBuilder × Dict Nat Nat × Nat :=
  indices.foldl (fun (recordWriter, messageIndexOffsets, messageIndexLength) messageIndex =>
    let (recordWriter, length) := writeMessageIndex messageIndex recordWriter
    (recordWriter,
      messageIndexOffsets.set messageIndex.channelId (messageIndexStart + messageIndexLength),
      messageIndexLength + length)) (recordWriter, ∅, 0)

def finalizeChunk (options : McapWriterOptions) (w : McapWriter) : McapWriter :=
  match w.chunkBuilder with
  | none => w
  | some chunkBuilder =>
      if chunkBuilder.numMessages = 0 then w
      else
        let w : McapWriter := { w with
          statistics := w.statistics.map fun s => { s with chunkCount := s.chunkCount + 1 } }
        let chunkData := chunkBuilder.buffer
        let (compression, compressedData) := match options.compressChunk with
          | some compressChunk => compressChunk chunkData
          | none => ("", chunkData)
        let chunkRecord : Chunk :=
          { messageStartTime := chunkBuilder.messageStartTime
            messageEndTime := chunkBuilder.messageEndTime
            uncompressedSize := chunkData.length
            uncompressedCrc := (crc32 chunkData).toNat
            compression
            records := compressedData }
        let chunkStartOffset := w.position
        let (recordWriter, chunkLength) := writeChunk chunkRecord w.recordWriter
        let w := flushData { w with recordWriter }
        let (recordWriter, messageIndexOffsets, messageIndexLength) :=
          writeMessageIndices w.position chunkBuilder.indices w.recordWriter
        flushData { w with
          recordWriter
          chunkIndices := w.chunkIndices.map fun chunkIndices => chunkIndices ++
            [{ messageStartTime := chunkRecord.messageStartTime
               messageEndTime := chunkRecord.messageEndTime
               chunkStartOffset
               chunkLength
               messageIndexOffsets
               messageIndexLength
               compression := chunkRecord.compression
               compressedSize := chunkRecord.records.length
               uncompressedSize := chunkRecord.uncompressedSize }]
          chunkBuilder := some chunkBuilder.reset }

/-- A schema, in the open chunk if there are chunks. -/
def putSchema (schema : Schema) (w : McapWriter) : McapWriter :=
  match w.chunkBuilder with
  | some chunkBuilder => { w with chunkBuilder := some (chunkBuilder.addSchema schema) }
  | none => { w with recordWriter := (writeSchema schema w.recordWriter).1 }

def putChannel (channel : Channel) (w : McapWriter) : McapWriter :=
  match w.chunkBuilder with
  | some chunkBuilder => { w with chunkBuilder := some (chunkBuilder.addChannel channel) }
  | none => { w with recordWriter := (writeChannel channel w.recordWriter).1 }

def putMessage (message : Message) (w : McapWriter) : McapWriter :=
  match w.chunkBuilder with
  | some chunkBuilder => { w with chunkBuilder := some (chunkBuilder.addMessage message) }
  | none => { w with recordWriter := writeMessage message w.recordWriter }

/-- The schema of a channel is written if it has not been. -/
def needSchema (schemaId : Nat) (w : McapWriter) : Except McapWriterError McapWriter :=
  if schemaId ≠ 0 ∧ schemaId ∉ w.writtenSchemaIds then
    match w.schemas.get? schemaId with
    | none => .error (.missingSchema schemaId)
    | some schema =>
        .ok { w.putSchema schema with writtenSchemaIds := w.writtenSchemaIds ++ [schemaId] }
  else .ok w

/-- A channel is written if it has not been. -/
def needChannel (channelId : Nat) (w : McapWriter) : Except McapWriterError McapWriter :=
  if channelId ∉ w.writtenChannelIds then
    match w.channels.get? channelId with
    | none => .error (.missingChannel channelId)
    | some channel => do
        let w ← w.needSchema channel.schemaId
        pure { w.putChannel channel with writtenChannelIds := w.writtenChannelIds ++ [channelId] }
  else .ok w

/-- The open chunk is too large. -/
def chunkFull (options : McapWriterOptions) (w : McapWriter) : Bool :=
  match w.chunkBuilder with
  | some chunkBuilder => decide (options.chunkSize < chunkBuilder.byteLength)
  | none => false

/-- `addMessage`, with what it throws; nothing has been written then. -/
def addMessage (options : McapWriterOptions) (message : Message) (w : McapWriter) :
    Except McapWriterError Unit × McapWriter :=
  let w := { w with statistics := w.statistics.map (Statistics.addMessage message) }
  match w.needChannel message.channelId with
  | .error e => (.error e, w)
  | .ok w =>
      let w := w.putMessage message
      (.ok (), if w.chunkFull options then w.finalizeChunk options else w)

def addAttachment (attachment : Attachment) (w : McapWriter) : McapWriter :=
  let (recordWriter, length) := writeAttachment attachment w.recordWriter
  flushData { w with
    recordWriter
    statistics := w.statistics.map fun s => { s with attachmentCount := s.attachmentCount + 1 }
    attachmentIndices := w.attachmentIndices.map fun attachmentIndices => attachmentIndices ++
      [{ logTime := attachment.logTime
         createTime := attachment.createTime
         name := attachment.name
         mediaType := attachment.mediaType
         offset := w.position
         dataSize := attachment.data.length
         length }] }

def addMetadata (metadata : Metadata) (w : McapWriter) : McapWriter :=
  let (recordWriter, recordSize) := writeMetadata metadata w.recordWriter
  flushData { w with
    recordWriter
    statistics := w.statistics.map fun s => { s with metadataCount := s.metadataCount + 1 }
    metadataIndices := w.metadataIndices.map fun metadataIndices => metadataIndices ++
      [{ name := metadata.name, offset := w.position, length := recordSize }] }

/-! ## The end -/

/-- A writer at its summary. -/
structure Ending where
  writer : McapWriter
  summaryCrc : UInt32
  summaryOffsets : List SummaryOffset

namespace Ending

/-- The record builder is written out, and added to the checksum of the summary. -/
def flush (e : Ending) : Ending :=
  { e with
    writer := e.writer.flush
    summaryCrc := crc32Update e.summaryCrc e.writer.recordWriter.buffer }

/-- A group of the summary, with its offset. -/
def group {α : Type} (groupOpcode : UInt8) (write : α → McapRecordBuilder → McapRecordBuilder × Nat)
    (records : List α) (e : Ending) : Ending :=
  let groupStart := e.writer.position
  let (recordWriter, groupLength) := records.foldl (fun (recordWriter, groupLength) record =>
    let (recordWriter, length) := write record recordWriter
    (recordWriter, groupLength + length)) (e.writer.recordWriter, 0)
  { e with
    writer := { e.writer with recordWriter }
    summaryOffsets := e.summaryOffsets ++
      [{ groupOpcode := groupOpcode.toNat, groupStart, groupLength }] }

/-- The groups of the summary. -/
def groups (options : McapWriterOptions) (e : Ending) : Ending :=
  let w := e.writer
  let e := if options.repeatSchemas then e.group Opcode.SCHEMA writeSchema w.schemas.values else e
  let e :=
    if options.repeatChannels then e.flush.group Opcode.CHANNEL writeChannel w.channels.values else e
  let e := match w.statistics with
    | some statistics => e.flush.group Opcode.STATISTICS writeStatistics [statistics]
    | none => e
  let e := e.flush
  let e := match w.metadataIndices with
    | some metadataIndices =>
        e.flush.group Opcode.METADATA_INDEX writeMetadataIndex metadataIndices
    | none => e
  let e := match w.attachmentIndices with
    | some attachmentIndices =>
        e.flush.group Opcode.ATTACHMENT_INDEX writeAttachmentIndex attachmentIndices
    | none => e
  let e := match w.chunkIndices with
    | some chunkIndices => e.flush.group Opcode.CHUNK_INDEX writeChunkIndex chunkIndices
    | none => e
  e.flush

/-- The first bytes of a footer, for the checksum. -/
def tempBuffer (footer : Footer) : Bytes :=
  [Opcode.FOOTER] ++ le 8 (8 + 8 + 4) ++ le 8 footer.summaryStart ++ le 8 footer.summaryOffsetStart

/-- The offsets of the groups and the footer, behind a summary from this position on. -/
def finish (options : McapWriterOptions) (summaryStart : Nat) (e : Ending) : McapWriter :=
  let summaryOffsetStart := e.writer.position
  let summaryLength := summaryOffsetStart - summaryStart
  let recordWriter :=
    if options.useSummaryOffsets then
      e.summaryOffsets.foldl (fun recordWriter summaryOffset =>
        if summaryOffset.groupLength ≠ 0 then (writeSummaryOffset summaryOffset recordWriter).1
        else recordWriter) e.writer.recordWriter
    else e.writer.recordWriter
  let summaryCrc := crc32Update e.summaryCrc recordWriter.buffer
  let footer : Footer :=
    { summaryStart := if summaryLength = 0 then 0 else summaryStart
      summaryOffsetStart := if options.useSummaryOffsets then summaryOffsetStart else 0
      summaryCrc := 0 }
  let summaryCrc := crc32Update summaryCrc (tempBuffer footer)
  let footer := { footer with summaryCrc := (crc32Final summaryCrc).toNat }
  McapWriter.flush { e.writer with
    recordWriter := writeMagic (writeFooter footer recordWriter).1 }

end Ending

/-- `end`. -/
def end' (options : McapWriterOptions) (w : McapWriter) : McapWriter :=
  let w := (w.finalizeChunk options).flushData
  let dataEnd : DataEnd :=
    { dataSectionCrc := match w.dataSectionCrc with
        | none => 0
        | some crc => (crc32Final crc).toNat }
  let w := flush { w with recordWriter := (writeDataEnd dataEnd w.recordWriter).1 }
  let e : Ending := { writer := w, summaryCrc := crc32Init, summaryOffsets := [] }
  (e.groups options).finish options w.position

end McapWriter

/-! ## Runs -/

/-- A call of a method of the writer, between `start` and `end`. -/
inductive Call
  | registerSchema (info : SchemaInfo)
  | registerChannel (info : ChannelInfo)
  | addMessage (message : Message)
  | addAttachment (attachment : Attachment)
  | addMetadata (metadata : Metadata)

namespace Call

/-- The writer behind a call. -/
def perform (options : McapWriterOptions) (w : McapWriter) : Call → McapWriter
  | registerSchema info => (w.registerSchema info).2
  | registerChannel info => (w.registerChannel info).2
  | addMessage message => (w.addMessage options message).2
  | addAttachment attachment => w.addAttachment attachment
  | addMetadata metadata => w.addMetadata metadata

end Call

namespace McapWriter

/-- The writer behind some calls. -/
def performAll (options : McapWriterOptions) (w : McapWriter) (calls : List Call) : McapWriter :=
  calls.foldl (Call.perform options) w

/-- **A file**: what has been written between the constructor and `end`. -/
def fileOf (options : McapWriterOptions) (header : Header) (calls : List Call) :
    Except McapWriterError Bytes := do
  let w ← (new options).start header
  pure ((w.performAll options calls).end' options).writable

end McapWriter

end Ts
end Mcap

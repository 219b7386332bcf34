import Mcap.Records
import Mcap.Dict
import Mcap.Crc32

/-! # Records of the TypeScript library

The records of `types.ts` and how `parse.ts` reads them with a `Reader`, which is a view of bytes and
an offset.  The offset is moved back and forth: to the end of a record when its fields are read, and
to the start of it when the view does not hold the whole record.

A field is read from the view, not from the record, so that what is read of a record that ends in the
middle of a field depends on the bytes behind it.

Numbers and bigints are natural numbers, and what `TextDecoder` makes of bytes is a parameter.
-/
namespace Mcap
namespace Ts

/-! ## The records -/

structure Header where
  profile : String
  library : String
deriving DecidableEq

structure Footer where
  summaryStart : Nat
  summaryOffsetStart : Nat
  summaryCrc : Nat
deriving DecidableEq

structure Schema where
  id : Nat
  name : String
  encoding : String
  data : Bytes
deriving DecidableEq

structure Channel where
  id : Nat
  schemaId : Nat
  topic : String
  messageEncoding : String
  metadata : Dict String String
deriving DecidableEq

structure Message where
  channelId : Nat
  sequence : Nat
  logTime : Nat
  publishTime : Nat
  data : Bytes
deriving DecidableEq

structure Chunk where
  messageStartTime : Nat
  messageEndTime : Nat
  uncompressedSize : Nat
  uncompressedCrc : Nat
  compression : String
  records : Bytes
deriving DecidableEq

structure MessageIndex where
  channelId : Nat
  records : List (Nat × Nat)
deriving DecidableEq

structure ChunkIndex where
  messageStartTime : Nat
  messageEndTime : Nat
  chunkStartOffset : Nat
  chunkLength : Nat
  messageIndexOffsets : Dict Nat Nat
  messageIndexLength : Nat
  compression : String
  compressedSize : Nat
  uncompressedSize : Nat
deriving DecidableEq

structure Attachment where
  name : String
  logTime : Nat
  createTime : Nat
  mediaType : String
  data : Bytes
deriving DecidableEq

structure AttachmentIndex where
  offset : Nat
  length : Nat
  logTime : Nat
  createTime : Nat
  dataSize : Nat
  name : String
  mediaType : String
deriving DecidableEq

structure Statistics where
  messageCount : Nat
  schemaCount : Nat
  channelCount : Nat
  attachmentCount : Nat
  metadataCount : Nat
  chunkCount : Nat
  messageStartTime : Nat
  messageEndTime : Nat
  channelMessageCounts : Dict Nat Nat
deriving DecidableEq

structure Metadata where
  name : String
  metadata : Dict String String
deriving DecidableEq

structure MetadataIndex where
  offset : Nat
  length : Nat
  name : String
deriving DecidableEq

structure SummaryOffset where
  groupOpcode : Nat
  groupStart : Nat
  groupLength : Nat
deriving DecidableEq

structure DataEnd where
  dataSectionCrc : Nat
deriving DecidableEq

structure UnknownRecord where
  opcode : UInt8
  data : Bytes
deriving DecidableEq

inductive TypedMcapRecord
  | header (record : Header)
  | footer (record : Footer)
  | schema (record : Schema)
  | channel (record : Channel)
  | message (record : Message)
  | chunk (record : Chunk)
  | messageIndex (record : MessageIndex)
  | chunkIndex (record : ChunkIndex)
  | attachment (record : Attachment)
  | attachmentIndex (record : AttachmentIndex)
  | statistics (record : Statistics)
  | metadata (record : Metadata)
  | metadataIndex (record : MetadataIndex)
  | summaryOffset (record : SummaryOffset)
  | dataEnd (record : DataEnd)
  | unknown (record : UnknownRecord)
deriving DecidableEq

/-! ## Opcodes -/

namespace Opcode

def HEADER : UInt8 := 0x01
def FOOTER : UInt8 := 0x02
def SCHEMA : UInt8 := 0x03
def CHANNEL : UInt8 := 0x04
def MESSAGE : UInt8 := 0x05
def CHUNK : UInt8 := 0x06
def MESSAGE_INDEX : UInt8 := 0x07
def CHUNK_INDEX : UInt8 := 0x08
def ATTACHMENT : UInt8 := 0x09
def ATTACHMENT_INDEX : UInt8 := 0x0a
def STATISTICS : UInt8 := 0x0b
def METADATA : UInt8 := 0x0c
def METADATA_INDEX : UInt8 := 0x0d
def SUMMARY_OFFSET : UInt8 := 0x0e
def DATA_END : UInt8 := 0x0f

end Opcode

/-! ## Errors -/

/-- `Number.MAX_SAFE_INTEGER`. -/
def MAX_SAFE_INTEGER : Nat := 2 ^ 53 - 1

/-- The errors that are thrown; those of the records of a chunk and of the end name the library. -/
inductive TsError
  | rangeError
  | stringExceeds (length : Nat)
  | pairsExceed (length : Nat)
  | readingPairs (message : TsError)
  | pairsGreater (found expected : Nat)
  | mapExceeds (length : Nat)
  | duplicateKey
  | readingMap (message : TsError)
  | mapGreater (found expected : Nat)
  | recordTooLarge (length : Nat)
  | schemaDataExceeds (length : Nat)
  | chunkRecordsExceed
  | attachmentTooLarge (length : Nat)
  | attachmentDataExceeds (length : Nat)
  | attachmentCrcMismatch (expected actual : Nat)
  | invalidMagic (found : Bytes)
  | alreadyDone
  | channelDiffers (id : Nat) (topic : String)
  | noChannel (id : Nat)
  | duplicateHeader (header record : Header)
  | unsupportedCompression (compression : String) (header : Option Header)
  | decompression (message : String)
  | incorrectChunkCrc (actual expected : Nat) (header : Option Header)
  | notAllowedInChunk (record : TypedMcapRecord) (header : Option Header)
  | bytesInChunk (count : Nat) (header : Option Header)
  | bytesBehindMagic (count : Nat) (header : Option Header)
  | atTheEnd (message : TsError) (header : Option Header)
deriving DecidableEq

/-! ## The reader -/

structure Reader where
  view : Bytes
  offset : Nat
deriving DecidableEq

/-- What is read with a reader. -/
abbrev Read := StateT Reader (Except TsError)

namespace Reader

def bytesRemaining (r : Reader) : Nat := r.view.length - r.offset

/-- An unsigned number of a `DataView`. -/
def uint (size : Nat) : Read Nat := fun r =>
  if r.offset + size ≤ r.view.length then
    .ok (ofLe ((r.view.drop r.offset).take size), { r with offset := r.offset + size })
  else .error .rangeError

def uint8 : Read Nat := uint 1
def uint16 : Read Nat := uint 2
def uint32 : Read Nat := uint 4
def uint64 : Read Nat := uint 8

/-- `u8ArrayBorrow` and `u8ArrayCopy`: what there is of the bytes; the offset is moved in any case. -/
def u8Array (length : Int) : Read Bytes := fun r =>
  .ok ((r.view.drop r.offset).take length.toNat, { r with offset := (r.offset + length).toNat })

/-- The assignment to `reader.offset`. -/
def setOffset (offset : Nat) : Read Unit := modify fun r => { r with offset }

variable (decode : Bytes → String)

def string : Read String := do
  let length ← uint32
  if length = 0 then pure ""
  else if (← get).bytesRemaining < length then throw (.stringExceeds length)
  else do
    let bytes ← u8Array length
    pure (decode bytes)

/-- `while (this.offset < endOffset)`. -/
def whileBefore {σ : Type} (endOffset : Nat) (step : σ → Read σ) : Nat → σ → Read σ
  | 0, s => pure s
  | fuel + 1, s => fun r =>
      if r.offset < endOffset then (step s >>= whileBefore endOffset step fuel) r
      else .ok (s, r)

/-- What is thrown in a loop is thrown again with a text in front. -/
def rethrow {α : Type} (wrap : TsError → TsError) (p : Read α) : Read α := fun r =>
  match p r with
  | .error e => .error (wrap e)
  | .ok x => .ok x

section
variable {K V : Type} (readKey : Read K) (readValue : Read V)

def pairStep (result : List (K × V)) : Read (List (K × V)) := do
  let key ← readKey
  let value ← readValue
  pure (result ++ [(key, value)])

def keyValuePairs : Read (List (K × V)) := do
  let length ← uint32
  let r ← get
  if r.view.length < r.offset + length then throw (.pairsExceed length)
  else do
    let endOffset := r.offset + length
    let result ← rethrow .readingPairs
      (whileBefore endOffset (pairStep readKey readValue) (length + 1) [])
    let offset := (← get).offset
    if offset ≠ endOffset then throw (.pairsGreater (offset - endOffset + length) length)
    else pure result

variable [DecidableEq K]

def mapStep (result : Dict K V) : Read (Dict K V) := do
  let key ← readKey
  let value ← readValue
  if (result.get? key).isSome then throw .duplicateKey
  else pure (result.set key value)

def map : Read (Dict K V) := do
  let length ← uint32
  let r ← get
  if r.view.length < r.offset + length then throw (.mapExceeds length)
  else do
    let endOffset := r.offset + length
    let result ← rethrow .readingMap
      (whileBefore endOffset (mapStep readKey readValue) (length + 1) ∅)
    let offset := (← get).offset
    if offset ≠ endOffset then throw (.mapGreater (offset - endOffset + length) length)
    else pure result

end

end Reader

/-! ## Parsing -/

open Reader

/-- `parseMagic`; nothing is read if there are too few bytes. -/
def parseMagic : Read (Option Unit) := do
  if (← get).bytesRemaining < MAGIC.length then pure none
  else do
    let magic ← u8Array MAGIC.length
    if magic ≠ MAGIC then throw (.invalidMagic magic) else pure (some ())

section
variable (decode : Bytes → String) (recordLength : Nat)

def parseUnknown (opcode : UInt8) : Read TypedMcapRecord := do
  let data ← u8Array recordLength
  pure (.unknown { opcode, data })

def parseHeader : Read TypedMcapRecord := do
  let startOffset := (← get).offset
  let profile ← string decode
  let library ← string decode
  setOffset (startOffset + recordLength)
  pure (.header { profile, library })

def parseFooter : Read TypedMcapRecord := do
  let startOffset := (← get).offset
  let summaryStart ← uint64
  let summaryOffsetStart ← uint64
  let summaryCrc ← uint32
  setOffset (startOffset + recordLength)
  pure (.footer { summaryStart, summaryOffsetStart, summaryCrc })

def parseSchema : Read TypedMcapRecord := do
  let start := (← get).offset
  let id ← uint16
  let name ← string decode
  let encoding ← string decode
  let dataLen ← uint32
  let end' := (← get).offset
  if (recordLength : Int) - (end' - start) < dataLen then throw (.schemaDataExceeds dataLen)
  else do
    let data ← u8Array dataLen
    setOffset (start + recordLength)
    pure (.schema { id, encoding, name, data })

def parseChannel : Read TypedMcapRecord := do
  let startOffset := (← get).offset
  let id ← uint16
  let schemaId ← uint16
  let topic ← string decode
  let messageEncoding ← string decode
  let metadata ← map (string decode) (string decode)
  setOffset (startOffset + recordLength)
  pure (.channel { id, schemaId, topic, messageEncoding, metadata })

def parseMessage : Read TypedMcapRecord := do
  let channelId ← uint16
  let sequence ← uint32
  let logTime ← uint64
  let publishTime ← uint64
  let data ← u8Array ((recordLength : Int) - (2 + 4 + 8 + 8))
  pure (.message { channelId, sequence, logTime, publishTime, data })

/-- The conversion of the length to a number rounds, but not to a number that is not too large. -/
def parseChunk : Read TypedMcapRecord := do
  let start := (← get).offset
  let messageStartTime ← uint64
  let messageEndTime ← uint64
  let uncompressedSize ← uint64
  let uncompressedCrc ← uint32
  let compression ← string decode
  let recordsByteLength ← uint64
  let end' := (← get).offset
  if (recordLength : Int) < recordsByteLength + ((end' : Int) - start) then throw .chunkRecordsExceed
  else do
    let records ← u8Array recordsByteLength
    setOffset (start + recordLength)
    pure (.chunk
      { messageStartTime, messageEndTime, compression, uncompressedSize, uncompressedCrc, records })

def parseMessageIndex : Read TypedMcapRecord := do
  let startOffset := (← get).offset
  let channelId ← uint16
  let records ← keyValuePairs uint64 uint64
  setOffset (startOffset + recordLength)
  pure (.messageIndex { channelId, records })

def parseChunkIndex : Read TypedMcapRecord := do
  let startOffset := (← get).offset
  let messageStartTime ← uint64
  let messageEndTime ← uint64
  let chunkStartOffset ← uint64
  let chunkLength ← uint64
  let messageIndexOffsets ← map uint16 uint64
  let messageIndexLength ← uint64
  let compression ← string decode
  let compressedSize ← uint64
  let uncompressedSize ← uint64
  setOffset (startOffset + recordLength)
  pure (.chunkIndex
    { messageStartTime, messageEndTime, chunkStartOffset, chunkLength, messageIndexOffsets,
      messageIndexLength, compression, compressedSize, uncompressedSize })

/-- The checksum of an attachment, which is over its fields, is compared unless it is 0. -/
def checkAttachment (validateCrcs : Bool) (startOffset crcLength expectedCrc : Nat) : Read Unit :=
  if validateCrcs = true ∧ expectedCrc ≠ 0 then do
    setOffset startOffset
    let fullData ← u8Array crcLength
    let actualCrc := (crc32 fullData).toNat
    setOffset (startOffset + crcLength + 4)
    if actualCrc ≠ expectedCrc then throw (.attachmentCrcMismatch expectedCrc actualCrc)
    else pure ()
  else pure ()

def parseAttachment (validateCrcs : Bool) : Read TypedMcapRecord := do
  let startOffset := (← get).offset
  let logTime ← uint64
  let createTime ← uint64
  let name ← string decode
  let mediaType ← string decode
  let dataLen ← uint64
  let offset := (← get).offset
  if MAX_SAFE_INTEGER < offset + dataLen then throw (.attachmentTooLarge dataLen)
  else if startOffset + recordLength < offset + dataLen + 4 then
    throw (.attachmentDataExceeds dataLen)
  else do
    let data ← u8Array dataLen
    let crcLength := (← get).offset - startOffset
    let expectedCrc ← uint32
    checkAttachment validateCrcs startOffset crcLength expectedCrc
    setOffset (startOffset + recordLength)
    pure (.attachment { logTime, createTime, name, mediaType, data })

def parseAttachmentIndex : Read TypedMcapRecord := do
  let startOffset := (← get).offset
  let offset ← uint64
  let length ← uint64
  let logTime ← uint64
  let createTime ← uint64
  let dataSize ← uint64
  let name ← string decode
  let mediaType ← string decode
  setOffset (startOffset + recordLength)
  pure (.attachmentIndex { offset, length, logTime, createTime, dataSize, name, mediaType })

def parseStatistics : Read TypedMcapRecord := do
  let startOffset := (← get).offset
  let messageCount ← uint64
  let schemaCount ← uint16
  let channelCount ← uint32
  let attachmentCount ← uint32
  let metadataCount ← uint32
  let chunkCount ← uint32
  let messageStartTime ← uint64
  let messageEndTime ← uint64
  let channelMessageCounts ← map uint16 uint64
  setOffset (startOffset + recordLength)
  pure (.statistics
    { messageCount, schemaCount, channelCount, attachmentCount, metadataCount, chunkCount,
      messageStartTime, messageEndTime, channelMessageCounts })

def parseMetadata : Read TypedMcapRecord := do
  let startOffset := (← get).offset
  let name ← string decode
  let metadata ← map (string decode) (string decode)
  setOffset (startOffset + recordLength)
  pure (.metadata { metadata, name })

def parseMetadataIndex : Read TypedMcapRecord := do
  let startOffset := (← get).offset
  let offset ← uint64
  let length ← uint64
  let name ← string decode
  setOffset (startOffset + recordLength)
  pure (.metadataIndex { offset, length, name })

def parseSummaryOffset : Read TypedMcapRecord := do
  let startOffset := (← get).offset
  let groupOpcode ← uint8
  let groupStart ← uint64
  let groupLength ← uint64
  setOffset (startOffset + recordLength)
  pure (.summaryOffset { groupOpcode, groupStart, groupLength })

def parseDataEnd : Read TypedMcapRecord := do
  let startOffset := (← get).offset
  let dataSectionCrc ← uint32
  setOffset (startOffset + recordLength)
  pure (.dataEnd { dataSectionCrc })

/-- The fields of a record, by its opcode. -/
def parseFields (validateCrcs : Bool) (opcode : UInt8) : Read TypedMcapRecord :=
  if opcode = Opcode.HEADER then parseHeader decode recordLength
  else if opcode = Opcode.FOOTER then parseFooter recordLength
  else if opcode = Opcode.SCHEMA then parseSchema decode recordLength
  else if opcode = Opcode.CHANNEL then parseChannel decode recordLength
  else if opcode = Opcode.MESSAGE then parseMessage recordLength
  else if opcode = Opcode.CHUNK then parseChunk decode recordLength
  else if opcode = Opcode.MESSAGE_INDEX then parseMessageIndex recordLength
  else if opcode = Opcode.CHUNK_INDEX then parseChunkIndex decode recordLength
  else if opcode = Opcode.ATTACHMENT then parseAttachment decode recordLength validateCrcs
  else if opcode = Opcode.ATTACHMENT_INDEX then parseAttachmentIndex decode recordLength
  else if opcode = Opcode.STATISTICS then parseStatistics recordLength
  else if opcode = Opcode.METADATA then parseMetadata decode recordLength
  else if opcode = Opcode.METADATA_INDEX then parseMetadataIndex decode recordLength
  else if opcode = Opcode.SUMMARY_OFFSET then parseSummaryOffset recordLength
  else if opcode = Opcode.DATA_END then parseDataEnd recordLength
  else parseUnknown recordLength opcode

end

/-- `parseRecord`; the offset is at the start of the record again if the view ends before it does. -/
def parseRecord (decode : Bytes → String) (validateCrcs : Bool) : Read (Option TypedMcapRecord) := do
  if (← get).bytesRemaining < 1 + 8 then pure none
  else do
    let start := (← get).offset
    let opcode ← uint8
    let recordLength ← uint64
    if MAX_SAFE_INTEGER < recordLength then throw (.recordTooLarge recordLength)
    else if (← get).bytesRemaining < recordLength then do
      setOffset start
      pure none
    else do
      let result ← parseFields decode recordLength validateCrcs (.ofNat opcode)
      setOffset (start + (1 + 8) + recordLength)
      pure (some result)

end Ts
end Mcap

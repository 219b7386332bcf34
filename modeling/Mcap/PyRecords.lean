import Mcap.Records
import Mcap.Dict

/-! # Records of the Python library

The records of `records.py`, how they are read from a `ReadDataStream` and how they are written
into a `RecordBuilder`, both of `data_stream.py`.

A record is read from whatever has a method `read`, and the functions take that method.  The one of
the library gives out what there is, which may be less than was asked for; it reads from a `BytesIO`.

Integers of records are natural numbers: those that are read fit their fields, and a number that
does not fit is refused by `struct.pack` when it is written.
-/
namespace Mcap
namespace Py

/-! ## The records -/

structure Attachment where
  createTime : Nat
  logTime : Nat
  name : String
  mediaType : String
  data : Bytes
deriving DecidableEq

structure AttachmentIndex where
  offset : Nat
  length : Nat
  logTime : Nat
  createTime : Nat
  dataSize : Nat
  name : String
  mediaType : String
deriving DecidableEq

structure Channel where
  id : Nat
  topic : String
  messageEncoding : String
  metadata : Dict String String
  schemaId : Nat
deriving DecidableEq

structure Chunk where
  compression : String
  data : Bytes
  messageEndTime : Nat
  messageStartTime : Nat
  uncompressedCrc : Nat
  uncompressedSize : Nat
deriving DecidableEq

structure ChunkIndex where
  chunkLength : Nat
  chunkStartOffset : Nat
  compression : String
  compressedSize : Nat
  messageEndTime : Nat
  messageIndexLength : Nat
  messageIndexOffsets : Dict Nat Nat
  messageStartTime : Nat
  uncompressedSize : Nat
deriving DecidableEq

structure DataEnd where
  dataSectionCrc : Nat
deriving DecidableEq

structure Footer where
  summaryStart : Nat
  summaryOffsetStart : Nat
  summaryCrc : Nat
deriving DecidableEq

structure Header where
  profile : String
  library : String
deriving DecidableEq

structure Message where
  channelId : Nat
  logTime : Nat
  data : Bytes
  publishTime : Nat
  sequence : Nat
deriving DecidableEq

structure MessageIndex where
  channelId : Nat
  records : List (Nat × Nat)
deriving DecidableEq

structure Metadata where
  name : String
  metadata : Dict String String
deriving DecidableEq

structure MetadataIndex where
  offset : Nat
  length : Nat
  name : String
deriving DecidableEq

structure Schema where
  id : Nat
  data : Bytes
  encoding : String
  name : String
deriving DecidableEq

structure Statistics where
  attachmentCount : Nat
  channelCount : Nat
  channelMessageCounts : Dict Nat Nat
  chunkCount : Nat
  messageCount : Nat
  messageEndTime : Nat
  messageStartTime : Nat
  metadataCount : Nat
  schemaCount : Nat
deriving DecidableEq

structure SummaryOffset where
  groupOpcode : Nat
  groupStart : Nat
  groupLength : Nat
deriving DecidableEq

inductive McapRecord
  | attachment (record : Attachment)
  | attachmentIndex (record : AttachmentIndex)
  | channel (record : Channel)
  | chunk (record : Chunk)
  | chunkIndex (record : ChunkIndex)
  | dataEnd (record : DataEnd)
  | footer (record : Footer)
  | header (record : Header)
  | message (record : Message)
  | messageIndex (record : MessageIndex)
  | metadata (record : Metadata)
  | metadataIndex (record : MetadataIndex)
  | schema (record : Schema)
  | statistics (record : Statistics)
  | summaryOffset (record : SummaryOffset)
deriving DecidableEq

/-- The exceptions that are raised: those of `exceptions.py` and `stream_reader.py`, and built-in
ones. -/
inductive PyError
  | endOfFile
  | invalidMagic (badMagic : Bytes)
  | recordLengthLimitExceeded (opcode : UInt8) (length limit : Nat)
  | unsupportedCompressionError (compression : String)
  | crcValidationError (expected actual : Nat) (record : McapRecord)
  | mcapError (text : String)
  /-- `struct.error`. -/
  | structError
  | unicodeDecodeError
  | overflowError
  | keyError (key : Nat)
  | valueError (text : String)
  | runtimeError (text : String)
  | stopIteration
  /-- What a compression package raises. -/
  | compressionError (compression : String)
deriving DecidableEq

/-! ## Reading -/

/-- The method `read` of a stream.  The position of the cursor is the `count` of the stream. -/
abbrev ReadMethod := Int → Read PyError Bytes

/-- `sys.maxsize`. -/
def sysMaxsize : Nat := 2 ^ 63 - 1

/-- `ReadDataStream.read`: a negative number asks for all that is left. -/
def ReadDataStream.read : ReadMethod := fun length c =>
  if length = 0 then .ok ([], c)
  else if sysMaxsize < length.toNat then .error .overflowError
  else
    let data := if length < 0 then c.rest else c.rest.take length.toNat
    if data = [] then .error .endOfFile
    else .ok (data, ⟨c.rest.drop data.length, c.pos + data.length⟩)

/-- `struct.unpack` of one number. -/
def unpack (w : Nat) (data : Bytes) : Read PyError Nat :=
  if data.length = w then pure (ofLe data) else throw .structError

/-- `str(data, "utf-8")`. -/
def decode (data : Bytes) : Read PyError String :=
  match String.fromUTF8? ⟨data.toArray⟩ with
  | some s => pure s
  | none => throw .unicodeDecodeError

section
variable (stream : ReadMethod)

def read1 : Read PyError Nat := do unpack 1 (← stream 1)
def read2 : Read PyError Nat := do unpack 2 (← stream 2)
def read4 : Read PyError Nat := do unpack 4 (← stream 4)
def read8 : Read PyError Nat := do unpack 8 (← stream 8)

def readPrefixedString : Read PyError String := do
  let length ← read4 stream
  decode (← stream length)

/-- A loop over entries, for as long as the count is below the end that is announced. -/
def readWhile {β : Type} (step : β → Read PyError β) (b : β) : Read PyError β := do
  let length ← read4 stream
  let c ← get
  readFold (c.pos + length) step (c.rest.length + 1) b

/-- A map of strings. -/
def readStringMap : Read PyError (Dict String String) :=
  readWhile stream (fun metadata => do
    let key ← readPrefixedString stream
    let value ← readPrefixedString stream
    pure (metadata.set key value)) ∅

/-- A map of channel ids. -/
def readIdMap : Read PyError (Dict Nat Nat) :=
  readWhile stream (fun entries => do
    let channelId ← read2 stream
    let value ← read8 stream
    pure (entries.set channelId value)) ∅

def Attachment.read : Read PyError Attachment := do
  let logTime ← read8 stream
  let createTime ← read8 stream
  let name ← readPrefixedString stream
  let mediaType ← readPrefixedString stream
  let dataLength ← read8 stream
  let data ← stream dataLength
  let _crc ← read4 stream
  pure { createTime, logTime, name, mediaType, data }

def AttachmentIndex.read : Read PyError AttachmentIndex := do
  let offset ← read8 stream
  let length ← read8 stream
  let logTime ← read8 stream
  let createTime ← read8 stream
  let dataSize ← read8 stream
  let name ← readPrefixedString stream
  let mediaType ← readPrefixedString stream
  pure { offset, length, logTime, createTime, dataSize, name, mediaType }

def Channel.read : Read PyError Channel := do
  let id ← read2 stream
  let schemaId ← read2 stream
  let topic ← readPrefixedString stream
  let messageEncoding ← readPrefixedString stream
  let metadata ← readStringMap stream
  pure { id, topic, messageEncoding, metadata, schemaId }

def Chunk.read : Read PyError Chunk := do
  let messageStartTime ← read8 stream
  let messageEndTime ← read8 stream
  let uncompressedSize ← read8 stream
  let uncompressedCrc ← read4 stream
  let compression ← readPrefixedString stream
  let dataLength ← read8 stream
  let data ← stream dataLength
  pure { compression, data, messageEndTime, messageStartTime, uncompressedCrc, uncompressedSize }

def ChunkIndex.read : Read PyError ChunkIndex := do
  let messageStartTime ← read8 stream
  let messageEndTime ← read8 stream
  let chunkStartOffset ← read8 stream
  let chunkLength ← read8 stream
  let messageIndexOffsets ← readIdMap stream
  let messageIndexLength ← read8 stream
  let compression ← readPrefixedString stream
  let compressedSize ← read8 stream
  let uncompressedSize ← read8 stream
  pure
    { messageIndexOffsets, chunkStartOffset, chunkLength, compression, compressedSize,
      messageEndTime, messageIndexLength, messageStartTime, uncompressedSize }

def DataEnd.read : Read PyError DataEnd := do
  let dataSectionCrc ← read4 stream
  pure { dataSectionCrc }

def Footer.read : Read PyError Footer := do
  let summaryStart ← read8 stream
  let summaryOffsetStart ← read8 stream
  let summaryCrc ← read4 stream
  pure { summaryStart, summaryOffsetStart, summaryCrc }

def Header.read : Read PyError Header := do
  let profile ← readPrefixedString stream
  let library ← readPrefixedString stream
  pure { profile, library }

def Message.read (length : Nat) : Read PyError Message := do
  let channelId ← read2 stream
  let sequence ← read4 stream
  let logTime ← read8 stream
  let publishTime ← read8 stream
  let data ← stream ((length : Int) - 22)
  pure { channelId, logTime, data, publishTime, sequence }

def MessageIndex.read : Read PyError MessageIndex := do
  let channelId ← read2 stream
  let entries ← readWhile stream (fun entries => do
    let timestamp ← read8 stream
    let offset ← read8 stream
    pure (entries ++ [(timestamp, offset)])) []
  pure ⟨channelId, entries⟩

def Metadata.read : Read PyError Metadata := do
  let name ← readPrefixedString stream
  let metadata ← readStringMap stream
  pure { name, metadata }

def MetadataIndex.read : Read PyError MetadataIndex := do
  let offset ← read8 stream
  let length ← read8 stream
  let name ← readPrefixedString stream
  pure { offset, length, name }

def Schema.read : Read PyError Schema := do
  let id ← read2 stream
  let name ← readPrefixedString stream
  let encoding ← readPrefixedString stream
  let dataLength ← read4 stream
  let data ← stream dataLength
  pure { id, data, encoding, name }

def Statistics.read : Read PyError Statistics := do
  let messageCount ← read8 stream
  let schemaCount ← read2 stream
  let channelCount ← read4 stream
  let attachmentCount ← read4 stream
  let metadataCount ← read4 stream
  let chunkCount ← read4 stream
  let messageStartTime ← read8 stream
  let messageEndTime ← read8 stream
  let channelMessageCounts ← readIdMap stream
  pure
    { attachmentCount, channelCount, channelMessageCounts, chunkCount, messageCount,
      messageEndTime, messageStartTime, metadataCount, schemaCount }

def SummaryOffset.read : Read PyError SummaryOffset := do
  let groupOpcode ← read1 stream
  let groupStart ← read8 stream
  let groupLength ← read8 stream
  pure { groupOpcode, groupStart, groupLength }

end

end Py
end Mcap

import Mcap.Records
import Mcap.Crc32
import Mcap.Dict
import Mcap.Exec

/-! # Records, as the Swift library reads and writes them

Swift stops the program where an integer operation overflows, where a conversion to `Int` does not fit
and where a range is not one of a buffer.  `Res.panic` is such a trap, and every sum of offsets
(`plus`), every conversion (`toInt`) and every slice (`slice`) says when it traps.

The read helpers move an offset in a buffer (`Read`); a record is deserialized from a buffer that holds
its fields and nothing else, from offset 0.  `fields` are the bytes of a record in the format, a field
`Fits` if its length can be written in front of it, and `Encodes` says which bytes stand for a record:
the fields, and behind them whatever a later version of the format may add.
-/
namespace Mcap
namespace Swift

/-! ## Integers and slices -/

/-- `Int.max` -/
def intMax : Nat := 2 ^ 63 - 1

inductive MCAPReadError
  | invalidMagic (actual : Bytes)
  | readBeyondBounds (offset length : Nat)
  | stringLengthBeyondBounds
  | dataLengthBeyondBounds
  | invalidCRC (expected actual : UInt32)
  | extraneousDataInChunk (length : Nat)
  | extraneousDataInSummary (length : Nat)
  | unsupportedCompression (compression : String)
  | readFailed (offset expectedLength actualLength : Nat)
  | missingHeader (actualOpcode : UInt8)
  | invalidMessageIndexEntry (offset chunkStartOffset chunkLength : UInt64)
  | incorrectOpcode (expected actual : UInt8)
  | missingSummary
  | decompressionFailed
deriving DecidableEq

/-- A value, a thrown error, or a trap. -/
abbrev Out (α : Type) := Res MCAPReadError α

/-- A sum of two `Int`s. -/
def plus (a b : Nat) : Out Nat := if a + b ≤ intMax then .ok (a + b) else .panic

/-- `Int(x)` for an unsigned `x`. -/
def toInt (x : Nat) : Out Nat := if x ≤ intMax then .ok x else .panic

/-- `buffer[lower ..< upper]` -/
def slice (buffer : Bytes) (lower upper : Nat) : Out Bytes :=
  if lower ≤ upper ∧ upper ≤ buffer.length then .ok ((buffer.drop lower).take (upper - lower))
  else .panic

theorem plus_ok {a b : Nat} (h : a + b ≤ intMax) : plus a b = .ok (a + b) := if_pos h

theorem toInt_ok {x : Nat} (h : x ≤ intMax) : toInt x = .ok x := if_pos h

theorem slice_mid (front mid back : Bytes) :
    slice (front ++ (mid ++ back)) front.length (front.length + mid.length) = .ok mid := by
  unfold slice
  rw [if_pos ⟨Nat.le_add_right _ _, by simp only [List.length_append]; omega⟩, List.drop_left,
    Nat.add_sub_cancel_left, List.take_left]

/-! ## Read helpers -/

/-- An operation on a buffer that moves an offset. -/
abbrev Read := ReaderT Bytes (StateT Nat (Res MCAPReadError))

/-- The next `length` bytes; `beyond` is thrown if there are not as many. -/
def readBytes (length : Nat) (beyond : Nat → MCAPReadError) : Read Bytes := fun buffer offset => do
  let stop ← plus offset length
  if stop > buffer.length then .err (beyond offset)
  else do
    let bytes ← slice buffer offset stop
    .ok (bytes, stop)

/-- `read(littleEndian:from:)` for an integer of `size` bytes. -/
def read (size : Nat) : Read Nat :=
  ofLe <$> readBytes size fun offset => .readBeyondBounds offset size

def readUInt8 : Read UInt8 := UInt8.ofNat <$> read 1
def readUInt16 : Read UInt16 := UInt16.ofNat <$> read 2
def readUInt32 : Read UInt32 := UInt32.ofNat <$> read 4
def readUInt64 : Read UInt64 := UInt64.ofNat <$> read 8

/-- `Int(x)` between two reads. -/
def readInt (x : Nat) : Read Nat := fun _ offset => do
  let n ← toInt x
  .ok (n, offset)

section
variable (repair : Bytes → String)

/-- `String(decoding:as: UTF8.self)`; `repair` replaces what is not UTF-8. -/
def decoding (bytes : Bytes) : String := (String.fromUTF8? ⟨bytes.toArray⟩).getD (repair bytes)

def readPrefixedString : Read String := do
  let length ← readUInt32
  decoding repair <$> readBytes length.toNat fun _ => .stringLengthBeyondBounds

def readUInt32PrefixedData : Read Bytes := do
  let length ← readUInt32
  readBytes length.toNat fun _ => .dataLengthBeyondBounds

def readUInt64PrefixedData : Read Bytes := do
  let length ← readUInt64
  let length ← readInt length.toNat
  readBytes length fun _ => .dataLengthBeyondBounds

/-- `while subrangeOffset < subrange.count`: every turn reads at least a length, so that as many turns
as there are bytes are enough. -/
def whileWithin {σ : Type} (step : σ → Read σ) : Nat → σ → Read σ
  | 0, result => pure result
  | turns + 1, result => fun subrange subrangeOffset =>
    if subrangeOffset < subrange.length then do
      let (result, subrangeOffset) ← step result subrange subrangeOffset
      whileWithin step turns result subrange subrangeOffset
    else .ok (result, subrangeOffset)

/-- The entries of a map or an array, in a subrange of the buffer that their size gives.  Nothing
checks that the buffer has it. -/
def readPrefixedEntries {σ : Type} (step : σ → Read σ) (empty : σ) : Read σ := do
  let size ← readUInt32
  fun buffer offset => do
    let stop ← plus offset size.toNat
    let subrange ← slice buffer offset stop
    let (result, subrangeOffset) ← whileWithin step subrange.length empty subrange 0
    let offset ← plus offset subrangeOffset
    .ok (result, offset)

/-- A turn of the loop in `readPrefixedStringMap`. -/
def stringMapStep (result : Dict String String) : Read (Dict String String) := do
  let key ← readPrefixedString repair
  let value ← readPrefixedString repair
  pure (result.set key value)

def readPrefixedStringMap : Read (Dict String String) := readPrefixedEntries (stringMapStep repair) ∅

end

/-- A turn of the loop in `readPrefixedTupleArray`. -/
def tupleArrayStep (result : List (UInt64 × UInt64)) : Read (List (UInt64 × UInt64)) := do
  let key ← readUInt64
  let value ← readUInt64
  pure (result ++ [(key, value)])

def readPrefixedTupleArray : Read (List (UInt64 × UInt64)) := readPrefixedEntries tupleArrayStep []

/-- A turn of the loop in `readPrefixedMap`. -/
def mapStep (result : Dict UInt16 UInt64) : Read (Dict UInt16 UInt64) := do
  let key ← readUInt16
  let value ← readUInt64
  pure (result.set key value)

def readPrefixedMap : Read (Dict UInt16 UInt64) := readPrefixedEntries mapStep ∅

/-- The rest of the buffer: `buffer.suffix(from: offset)` -/
def readRest : Read Bytes := fun buffer offset => do
  let bytes ← slice buffer offset buffer.length
  .ok (bytes, offset)

/-! ## Records -/

inductive Opcode
  | header | footer | schema | channel | message | chunk | messageIndex | chunkIndex | attachment
  | attachmentIndex | statistics | metadata | metadataIndex | summaryOffset | dataEnd
deriving DecidableEq

namespace Opcode

def rawValue : Opcode → UInt8
  | header => 0x01
  | footer => 0x02
  | schema => 0x03
  | channel => 0x04
  | message => 0x05
  | chunk => 0x06
  | messageIndex => 0x07
  | chunkIndex => 0x08
  | attachment => 0x09
  | attachmentIndex => 0x0A
  | statistics => 0x0B
  | metadata => 0x0C
  | metadataIndex => 0x0D
  | summaryOffset => 0x0E
  | dataEnd => 0x0F

/-- `Opcode(rawValue:)` -/
def ofRawValue? (raw : UInt8) : Option Opcode :=
  [header, footer, schema, channel, message, chunk, messageIndex, chunkIndex, attachment,
    attachmentIndex, statistics, metadata, metadataIndex, summaryOffset, dataEnd].find? fun op =>
      op.rawValue = raw

@[simp] theorem ofRawValue?_rawValue (op : Opcode) : ofRawValue? op.rawValue = some op := by
  cases op <;> rfl

end Opcode

structure Header where
  profile : String
  library : String
deriving DecidableEq

structure Footer where
  summaryStart : UInt64
  summaryOffsetStart : UInt64
  summaryCRC : UInt32
deriving DecidableEq

structure Schema where
  id : UInt16
  name : String
  encoding : String
  data : Bytes
deriving DecidableEq

structure Channel where
  id : UInt16
  schemaID : UInt16
  topic : String
  messageEncoding : String
  metadata : Dict String String
deriving DecidableEq

structure Message where
  channelID : UInt16
  sequence : UInt32
  logTime : UInt64
  publishTime : UInt64
  data : Bytes
deriving DecidableEq

structure Chunk where
  messageStartTime : UInt64
  messageEndTime : UInt64
  uncompressedSize : UInt64
  uncompressedCRC : UInt32
  compression : String
  records : Bytes
deriving DecidableEq

structure MessageIndex where
  channelID : UInt16
  /-- log times and offsets -/
  records : List (UInt64 × UInt64)
deriving DecidableEq

structure ChunkIndex where
  messageStartTime : UInt64
  messageEndTime : UInt64
  chunkStartOffset : UInt64
  chunkLength : UInt64
  messageIndexOffsets : Dict UInt16 UInt64
  messageIndexLength : UInt64
  compression : String
  compressedSize : UInt64
  uncompressedSize : UInt64
deriving DecidableEq

structure Attachment where
  logTime : UInt64
  createTime : UInt64
  name : String
  mediaType : String
  data : Bytes
deriving DecidableEq

structure AttachmentIndex where
  offset : UInt64
  length : UInt64
  logTime : UInt64
  createTime : UInt64
  dataSize : UInt64
  name : String
  mediaType : String
deriving DecidableEq

structure Statistics where
  messageCount : UInt64
  schemaCount : UInt16
  channelCount : UInt32
  attachmentCount : UInt32
  metadataCount : UInt32
  chunkCount : UInt32
  messageStartTime : UInt64
  messageEndTime : UInt64
  channelMessageCounts : Dict UInt16 UInt64
deriving DecidableEq

structure Metadata where
  name : String
  metadata : Dict String String
deriving DecidableEq

structure MetadataIndex where
  offset : UInt64
  length : UInt64
  name : String
deriving DecidableEq

structure SummaryOffset where
  groupOpcode : UInt8
  groupStart : UInt64
  groupLength : UInt64
deriving DecidableEq

structure DataEnd where
  dataSectionCRC : UInt32
deriving DecidableEq

inductive Record
  | header (record : Header)
  | footer (record : Footer)
  | schema (record : Schema)
  | channel (record : Channel)
  | message (record : Message)
  | chunk (record : Chunk)
  | messageIndex (record : MessageIndex)
  | chunkIndex (record : ChunkIndex)
  | attachment (record : Attachment)
  | attachmentIndex (record : AttachmentIndex)
  | statistics (record : Statistics)
  | metadata (record : Metadata)
  | metadataIndex (record : MetadataIndex)
  | summaryOffset (record : SummaryOffset)
  | dataEnd (record : DataEnd)
deriving DecidableEq

/-- The opcode of a record's type. -/
def Record.opcode : Record → Opcode
  | .header _ => .header
  | .footer _ => .footer
  | .schema _ => .schema
  | .channel _ => .channel
  | .message _ => .message
  | .chunk _ => .chunk
  | .messageIndex _ => .messageIndex
  | .chunkIndex _ => .chunkIndex
  | .attachment _ => .attachment
  | .attachmentIndex _ => .attachmentIndex
  | .statistics _ => .statistics
  | .metadata _ => .metadata
  | .metadataIndex _ => .metadataIndex
  | .summaryOffset _ => .summaryOffset
  | .dataEnd _ => .dataEnd

/-! ## Deserializing -/

section
variable (repair : Bytes → String)

def Header.read : Read Header := do
  let profile ← readPrefixedString repair
  let library ← readPrefixedString repair
  pure { profile, library }

def Footer.read : Read Footer := do
  let summaryStart ← readUInt64
  let summaryOffsetStart ← readUInt64
  let summaryCRC ← readUInt32
  pure { summaryStart, summaryOffsetStart, summaryCRC }

def Schema.read : Read Schema := do
  let id ← readUInt16
  let name ← readPrefixedString repair
  let encoding ← readPrefixedString repair
  let data ← readUInt32PrefixedData
  pure { id, name, encoding, data }

def Channel.read : Read Channel := do
  let id ← readUInt16
  let schemaID ← readUInt16
  let topic ← readPrefixedString repair
  let messageEncoding ← readPrefixedString repair
  let metadata ← readPrefixedStringMap repair
  pure { id, schemaID, topic, messageEncoding, metadata }

def Message.read : Read Message := do
  let channelID ← readUInt16
  let sequence ← readUInt32
  let logTime ← readUInt64
  let publishTime ← readUInt64
  let data ← readRest
  pure { channelID, sequence, logTime, publishTime, data }

def Chunk.read : Read Chunk := do
  let messageStartTime ← readUInt64
  let messageEndTime ← readUInt64
  let uncompressedSize ← readUInt64
  let uncompressedCRC ← readUInt32
  let compression ← readPrefixedString repair
  let records ← readUInt64PrefixedData
  pure { messageStartTime, messageEndTime, uncompressedSize, uncompressedCRC, compression, records }

def MessageIndex.read : Read MessageIndex := do
  let channelID ← readUInt16
  let records ← readPrefixedTupleArray
  pure { channelID, records }

def ChunkIndex.read : Read ChunkIndex := do
  let messageStartTime ← readUInt64
  let messageEndTime ← readUInt64
  let chunkStartOffset ← readUInt64
  let chunkLength ← readUInt64
  let messageIndexOffsets ← readPrefixedMap
  let messageIndexLength ← readUInt64
  let compression ← readPrefixedString repair
  let compressedSize ← readUInt64
  let uncompressedSize ← readUInt64
  pure { messageStartTime, messageEndTime, chunkStartOffset, chunkLength, messageIndexOffsets,
         messageIndexLength, compression, compressedSize, uncompressedSize }

/-- The fields of an attachment before its CRC. -/
def Attachment.readFields : Read Attachment := do
  let logTime ← readUInt64
  let createTime ← readUInt64
  let name ← readPrefixedString repair
  let mediaType ← readPrefixedString repair
  let data ← readUInt64PrefixedData
  pure { logTime, createTime, name, mediaType, data }

/-- The CRC of the first `crcEndOffset` bytes of the buffer, unless 0 is expected. -/
def checkCRC (expectedCRC : UInt32) (crcEndOffset : Nat) : Read Unit := fun buffer offset => do
  let covered ← slice buffer 0 crcEndOffset
  if expectedCRC ≠ 0 ∧ expectedCRC ≠ crc32 covered then
    .err (.invalidCRC expectedCRC (crc32 covered))
  else .ok ((), offset)

/-- The offset. -/
def readOffset : Read Nat := fun _ offset => .ok (offset, offset)

def Attachment.read : Read Attachment := do
  let attachment ← Attachment.readFields repair
  let crcEndOffset ← readOffset
  let expectedCRC ← readUInt32
  checkCRC expectedCRC crcEndOffset
  pure attachment

def AttachmentIndex.read : Read AttachmentIndex := do
  let offset ← readUInt64
  let length ← readUInt64
  let logTime ← readUInt64
  let createTime ← readUInt64
  let dataSize ← readUInt64
  let name ← readPrefixedString repair
  let mediaType ← readPrefixedString repair
  pure { offset, length, logTime, createTime, dataSize, name, mediaType }

def Statistics.read : Read Statistics := do
  let messageCount ← readUInt64
  let schemaCount ← readUInt16
  let channelCount ← readUInt32
  let attachmentCount ← readUInt32
  let metadataCount ← readUInt32
  let chunkCount ← readUInt32
  let messageStartTime ← readUInt64
  let messageEndTime ← readUInt64
  let channelMessageCounts ← readPrefixedMap
  pure { messageCount, schemaCount, channelCount, attachmentCount, metadataCount, chunkCount,
         messageStartTime, messageEndTime, channelMessageCounts }

def Metadata.read : Read Metadata := do
  let name ← readPrefixedString repair
  let metadata ← readPrefixedStringMap repair
  pure { name, metadata }

def MetadataIndex.read : Read MetadataIndex := do
  let offset ← readUInt64
  let length ← readUInt64
  let name ← readPrefixedString repair
  pure { offset, length, name }

def SummaryOffset.read : Read SummaryOffset := do
  let groupOpcode ← readUInt8
  let groupStart ← readUInt64
  let groupLength ← readUInt64
  pure { groupOpcode, groupStart, groupLength }

def DataEnd.read : Read DataEnd := do
  let dataSectionCRC ← readUInt32
  pure { dataSectionCRC }

/-- `init(deserializingFieldsFrom:)` of the type an opcode stands for. -/
def Record.read : Opcode → Read Record
  | .header => .header <$> Header.read repair
  | .footer => .footer <$> Footer.read
  | .schema => .schema <$> Schema.read repair
  | .channel => .channel <$> Channel.read repair
  | .message => .message <$> Message.read
  | .chunk => .chunk <$> Chunk.read repair
  | .messageIndex => .messageIndex <$> MessageIndex.read
  | .chunkIndex => .chunkIndex <$> ChunkIndex.read repair
  | .attachment => .attachment <$> Attachment.read repair
  | .attachmentIndex => .attachmentIndex <$> AttachmentIndex.read repair
  | .statistics => .statistics <$> Statistics.read
  | .metadata => .metadata <$> Metadata.read repair
  | .metadataIndex => .metadataIndex <$> MetadataIndex.read repair
  | .summaryOffset => .summaryOffset <$> SummaryOffset.read
  | .dataEnd => .dataEnd <$> DataEnd.read

/-- What a read gives of a buffer, from offset 0. -/
def deserializingFields {α : Type} (p : Read α) (buffer : Bytes) : Out α := do
  let (record, _) ← p buffer 0
  .ok record

end

end Swift
end Mcap

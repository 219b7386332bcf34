import Mcap.Records
import Mcap.Exec

/-! # The records of the Go library

The record types of `mcap.go`, the bodies that the methods of `writer.go` put together for
them, and the parsers of `parse.go`.  A Go string is any byte string: nothing checks that it is
UTF-8.  A map of strings is written by increasing key, and `[]byte` order is the
lexicographic one.

A parser walks over a buffer by offsets.  A field that does not fit is `io.ErrShortBuffer`,
wrapped in a text that names the field; a slice expression out of range is a panic.  Lengths
are 32 or 64 bits wide, and an addition in `uint32` wraps.
-/
namespace Mcap
namespace Go

/-! ## Errors -/

/-- An error value of the library. -/
inductive Error
  /-- `io.EOF`. -/
  | eof
  /-- `io.ErrUnexpectedEOF`. -/
  | unexpectedEOF
  /-- `io.ErrShortBuffer`. -/
  | shortBuffer
  /-- `errors.New`, and the named errors of `errors.go`. -/
  | text (s : String)
  /-- `fmt.Errorf("...: %w", err)`. -/
  | wrapped (context : String) (err : Error)
  /-- `ErrTruncatedRecord`. -/
  | truncatedRecord (opcode : UInt8) (actualLen : Nat) (expectedLen : UInt64)
  /-- `ErrBadMagic`. -/
  | badMagic (actual : Bytes)
  /-- `errInvalidChunkCrc`. -/
  | invalidChunkCrc (expected actual : UInt32)
deriving DecidableEq

/-- `errors.Is(err, target)`: the error, or one that it wraps. -/
def Error.is (target : Error) : Error → Bool
  | wrapped context err => decide (wrapped context err = target) || is target err
  | truncatedRecord opcode actualLen expectedLen =>
      decide (truncatedRecord opcode actualLen expectedLen = target) ||
        decide (unexpectedEOF = target)
  | err => decide (err = target)

/-- `fmt.Errorf("<context>: %w", err)` where a call fails. -/
def wrap {α : Type} (context : String) : Res Error α → Res Error α
  | .ok a => .ok a
  | .err e => .err (.wrapped context e)
  | .panic => .panic

@[simp] theorem wrap_ok {α : Type} (context : String) (a : α) :
    wrap context (.ok a : Res Error α) = .ok a := rfl

/-! ## Record types -/

/-- `Header`. -/
structure Header where
  profile : Bytes
  library : Bytes
deriving DecidableEq

/-- `Footer`. -/
structure Footer where
  summaryStart : UInt64
  summaryOffsetStart : UInt64
  summaryCRC : UInt32
deriving DecidableEq

/-- `Schema`. -/
structure Schema where
  id : UInt16
  name : Bytes
  encoding : Bytes
  data : Bytes
deriving DecidableEq

/-- `Channel`. -/
structure Channel where
  id : UInt16
  schemaID : UInt16
  topic : Bytes
  messageEncoding : Bytes
  metadata : BTreeMap Bytes Bytes
deriving DecidableEq

/-- `Message`. -/
structure Message where
  channelID : UInt16
  sequence : UInt32
  logTime : UInt64
  publishTime : UInt64
  data : Bytes
deriving DecidableEq

/-- `Chunk`.  The number of uncompressed bytes is a natural number, below `2 ^ 64` where it is
parsed, and modulo `2 ^ 64` where it is written. -/
structure Chunk where
  messageStartTime : UInt64
  messageEndTime : UInt64
  uncompressedSize : Nat
  uncompressedCRC : UInt32
  compression : Bytes
  records : Bytes
deriving DecidableEq

/-- `MessageIndexEntry`. -/
structure MessageIndexEntry where
  timestamp : UInt64
  offset : UInt64
deriving DecidableEq, Inhabited

/-- `MessageIndex`: the first `currentIndex` of the records are its entries, the others are
room for more. -/
structure MessageIndex where
  channelID : UInt16
  records : List MessageIndexEntry
  currentIndex : Nat
deriving DecidableEq

/-- `ChunkIndex`. -/
structure ChunkIndex where
  messageStartTime : UInt64
  messageEndTime : UInt64
  chunkStartOffset : UInt64
  chunkLength : UInt64
  messageIndexOffsets : BTreeMap UInt16 UInt64
  messageIndexLength : UInt64
  compression : Bytes
  compressedSize : UInt64
  uncompressedSize : UInt64
deriving DecidableEq

/-- `Attachment`; `data` is what its reader yields until the end. -/
structure Attachment where
  logTime : UInt64
  createTime : UInt64
  name : Bytes
  mediaType : Bytes
  dataSize : UInt64
  data : Bytes
deriving DecidableEq

/-- `AttachmentIndex`. -/
structure AttachmentIndex where
  offset : UInt64
  length : UInt64
  logTime : UInt64
  createTime : UInt64
  dataSize : UInt64
  name : Bytes
  mediaType : Bytes
deriving DecidableEq

/-- `Statistics`. -/
structure Statistics where
  messageCount : UInt64
  schemaCount : UInt16
  channelCount : UInt32
  attachmentCount : UInt32
  metadataCount : UInt32
  chunkCount : UInt32
  messageStartTime : UInt64
  messageEndTime : UInt64
  channelMessageCounts : BTreeMap UInt16 UInt64
deriving DecidableEq

/-- `Metadata`. -/
structure Metadata where
  name : Bytes
  metadata : BTreeMap Bytes Bytes
deriving DecidableEq

/-- `MetadataIndex`. -/
structure MetadataIndex where
  offset : UInt64
  length : UInt64
  name : Bytes
deriving DecidableEq

/-- `SummaryOffset`. -/
structure SummaryOffset where
  groupOpcode : UInt8
  groupStart : UInt64
  groupLength : UInt64
deriving DecidableEq

/-- `DataEnd`. -/
structure DataEnd where
  dataSectionCRC : UInt32
deriving DecidableEq

/-! ## Message indexes -/

namespace MessageIndex

/-- `Reset`: the records stay, as room. -/
def reset (idx : MessageIndex) : MessageIndex := { idx with currentIndex := 0 }

/-- `IsEmpty`. -/
def isEmpty (idx : MessageIndex) : Bool := idx.currentIndex = 0

/-- `Entries`. -/
def entries (idx : MessageIndex) : List MessageIndexEntry := idx.records.take idx.currentIndex

/-- The records, with room for one more. -/
def grown (idx : MessageIndex) : List MessageIndexEntry :=
  if idx.records.length ≤ idx.currentIndex then
    idx.records ++ List.replicate ((idx.records.length + 20) * 2 - idx.records.length) ⟨0, 0⟩
  else idx.records

/-- `Add`. -/
def add (idx : MessageIndex) (timestamp offset : UInt64) : MessageIndex where
  channelID := idx.channelID
  records := idx.grown.set idx.currentIndex ⟨timestamp, offset⟩
  currentIndex := idx.currentIndex + 1

/-- The entries lie within the records. -/
def Sound (idx : MessageIndex) : Prop := idx.currentIndex ≤ idx.records.length

theorem lt_length_grown (idx : MessageIndex) (h : idx.Sound) :
    idx.currentIndex < idx.grown.length := by
  unfold Sound at h
  unfold grown
  split
  · rw [List.length_append, List.length_replicate]
    omega
  · omega

theorem take_grown (idx : MessageIndex) (h : idx.Sound) :
    idx.grown.take idx.currentIndex = idx.entries := by
  unfold grown
  split
  · exact List.take_append_of_le_length h
  · rfl

theorem sound_reset (idx : MessageIndex) : idx.reset.Sound := Nat.zero_le _

theorem sound_add {idx : MessageIndex} (h : idx.Sound) (timestamp offset : UInt64) :
    (idx.add timestamp offset).Sound := by
  have hlt := idx.lt_length_grown h
  show idx.currentIndex + 1 ≤ (idx.grown.set _ _).length
  rw [List.length_set]
  exact hlt

@[simp] theorem entries_reset (idx : MessageIndex) : idx.reset.entries = [] := rfl

theorem entries_add {idx : MessageIndex} (h : idx.Sound) (timestamp offset : UInt64) :
    (idx.add timestamp offset).entries = idx.entries ++ [⟨timestamp, offset⟩] := by
  have hlt := idx.lt_length_grown h
  show (idx.grown.set _ _).take (idx.currentIndex + 1) = _
  rw [List.take_add_one, List.take_set_of_le (Nat.le_refl _), idx.take_grown h,
    List.getElem?_set_self hlt]
  rfl

theorem isEmpty_iff {idx : MessageIndex} (h : idx.Sound) :
    idx.isEmpty = true ↔ idx.entries = [] := by
  unfold isEmpty entries
  unfold Sound at h
  rw [decide_eq_true_iff, List.take_eq_nil_iff]
  constructor
  · exact .inl
  · rintro (h0 | hnil)
    · exact h0
    · rw [hnil, List.length_nil] at h
      omega

end MessageIndex

/-! ## Record bodies -/

theorem u64_ofNat (n : Nat) : u64 (.ofNat n) = le 8 n := by
  rw [u64, UInt64.toNat_ofNat', show 2 ^ 64 = 256 ^ 8 from rfl, le_mod]

/-- `putPrefixedString` and `putPrefixedBytes`. -/
def putPrefixedString (s : Bytes) : Bytes := le 4 s.length ++ s

/-- One entry of a map of strings. -/
def mapEntry (e : Bytes × Bytes) : Bytes := putPrefixedString e.1 ++ putPrefixedString e.2

/-- `makePrefixedMap`: the keys are sorted. -/
def makePrefixedMap (m : BTreeMap Bytes Bytes) : Bytes :=
  le 4 (m.toList.flatMap mapEntry).length ++ m.toList.flatMap mapEntry

def Header.body (h : Header) : Bytes := putPrefixedString h.profile ++ putPrefixedString h.library

def Schema.body (s : Schema) : Bytes :=
  u16 s.id ++ (putPrefixedString s.name ++ (putPrefixedString s.encoding ++
    putPrefixedString s.data))

def Channel.body (c : Channel) : Bytes :=
  u16 c.id ++ (u16 c.schemaID ++ (putPrefixedString c.topic ++
    (putPrefixedString c.messageEncoding ++ makePrefixedMap c.metadata)))

def Message.body (m : Message) : Bytes :=
  u16 m.channelID ++ (u32 m.sequence ++ (u64 m.logTime ++ (u64 m.publishTime ++ m.data)))

/-- The top fields of a chunk: all but the records. -/
def Chunk.top (c : Chunk) : Bytes :=
  u64 c.messageStartTime ++ (u64 c.messageEndTime ++ (le 8 c.uncompressedSize ++
    (u32 c.uncompressedCRC ++ (putPrefixedString c.compression ++ le 8 c.records.length))))

def Chunk.body (c : Chunk) : Bytes := c.top ++ c.records

def MessageIndexEntry.bytes (e : MessageIndexEntry) : Bytes := u64 e.timestamp ++ u64 e.offset

/-- A message index of the given entries. -/
def indexBody (channelID : UInt16) (entries : List MessageIndexEntry) : Bytes :=
  u16 channelID ++ (le 4 (entries.length * (8 + 8)) ++ entries.flatMap MessageIndexEntry.bytes)

def MessageIndex.body (idx : MessageIndex) : Bytes := indexBody idx.channelID idx.entries

/-- An attachment up to its data. -/
def Attachment.top (a : Attachment) : Bytes :=
  u64 a.logTime ++ (u64 a.createTime ++ (putPrefixedString a.name ++
    (putPrefixedString a.mediaType ++ u64 a.dataSize)))

/-- An attachment: its checksum covers all that comes before it. -/
def Attachment.body (a : Attachment) : Bytes :=
  a.top ++ (a.data ++ u32 (crc32 (a.top ++ a.data)))

def AttachmentIndex.body (idx : AttachmentIndex) : Bytes :=
  u64 idx.offset ++ (u64 idx.length ++ (u64 idx.logTime ++ (u64 idx.createTime ++
    (u64 idx.dataSize ++ (putPrefixedString idx.name ++ putPrefixedString idx.mediaType)))))

def Metadata.body (m : Metadata) : Bytes := putPrefixedString m.name ++ makePrefixedMap m.metadata

def MetadataIndex.body (idx : MetadataIndex) : Bytes :=
  u64 idx.offset ++ (u64 idx.length ++ putPrefixedString idx.name)

def SummaryOffset.body (s : SummaryOffset) : Bytes :=
  u8 s.groupOpcode ++ (u64 s.groupStart ++ u64 s.groupLength)

def DataEnd.body (e : DataEnd) : Bytes := u32 e.dataSectionCRC

/-- The entries of a map from channel ids, of the channels in `channelIDs` and in their order. -/
def channelEntries (channelIDs : List UInt16) (m : BTreeMap UInt16 UInt64) :
    List (UInt16 × UInt64) :=
  channelIDs.filterMap fun chanID => m[chanID]?.map (chanID, ·)

/-- `WriteStatistics`: only the channels of the writer are counted. -/
def Statistics.body (channelIDs : List UInt16) (s : Statistics) : Bytes :=
  u64 s.messageCount ++ (u16 s.schemaCount ++ (u32 s.channelCount ++ (u32 s.attachmentCount ++
    (u32 s.metadataCount ++ (u32 s.chunkCount ++ (u64 s.messageStartTime ++
      (u64 s.messageEndTime ++
        (le 4 ((channelEntries channelIDs s.channelMessageCounts).length * (2 + 8)) ++
          (channelEntries channelIDs s.channelMessageCounts).flatMap intEntry))))))))

/-- `WriteChunkIndex`: the length counts all offsets, and those of the channels of the writer
are written.  The scratch buffer has the announced size, and what is not written of it is not
part of the record. -/
def ChunkIndex.body (channelIDs : List UInt16) (idx : ChunkIndex) : Bytes :=
  u64 idx.messageStartTime ++ (u64 idx.messageEndTime ++ (u64 idx.chunkStartOffset ++
    (u64 idx.chunkLength ++ (le 4 (idx.messageIndexOffsets.size * (2 + 8)) ++
      ((channelEntries channelIDs idx.messageIndexOffsets).flatMap intEntry ++
        (u64 idx.messageIndexLength ++ (putPrefixedString idx.compression ++
          (u64 idx.compressedSize ++ u64 idx.uncompressedSize))))))))

end Go
end Mcap

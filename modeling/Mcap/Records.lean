import Mcap.Crc32
import Mcap.OrderedMap

/-! # Records and their binary form

The record types of `records.rs`, each with the bytes `BinWrite` produces
(`bytes`) and the reader `BinRead` derives (`read`).  Field order, widths and
the byte-counted maps and arrays are the source's: a string is a 32-bit length
and its UTF-8 bytes, a map is a 32-bit length **in bytes** and its entries by
increasing key, and a length that does not fit its field is truncated.

`Fits` says that every length of a value fits its 32-bit field; the round trip
`reads` holds exactly under it.
-/
namespace Mcap

/-- `binrw::Error`, as far as the readers below raise it. -/
inductive BinError
  /-- The input ended inside a field. -/
  | io
  /-- A string field is not UTF-8. -/
  | fromUtf8 (pos : Nat)
  /-- An error raised by a custom parser. -/
  | custom (pos : Nat) (err : String)
deriving DecidableEq

/-! ## Opcodes -/

namespace op

def HEADER : UInt8 := 0x01
def FOOTER : UInt8 := 0x02
def SCHEMA : UInt8 := 0x03
def CHANNEL : UInt8 := 0x04
def MESSAGE : UInt8 := 0x05
def CHUNK : UInt8 := 0x06
def MESSAGE_INDEX : UInt8 := 0x07
def CHUNK_INDEX : UInt8 := 0x08
def ATTACHMENT : UInt8 := 0x09
def ATTACHMENT_INDEX : UInt8 := 0x0A
def STATISTICS : UInt8 := 0x0B
def METADATA : UInt8 := 0x0C
def METADATA_INDEX : UInt8 := 0x0D
def SUMMARY_OFFSET : UInt8 := 0x0E
def DATA_END : UInt8 := 0x0F

end op

/-- Magic bytes for the MCAP format. -/
def MAGIC : Bytes := [0x89, 0x4D, 0x43, 0x41, 0x50, 0x30, 0x0D, 0x0A]

@[simp] theorem MAGIC_length : MAGIC.length = 8 := rfl

/-- A record: its opcode, the 64-bit length of its body, and the body. -/
def frame (opcode : UInt8) (body : Bytes) : Bytes := opcode :: (le 8 body.length ++ body)

@[simp] theorem length_frame (opcode : UInt8) (body : Bytes) :
    (frame opcode body).length = 9 + body.length := by
  simp only [frame, List.length_cons, List.length_append, length_le]
  omega

/-- Records one after the other. -/
def frames (recs : List (UInt8 × Bytes)) : Bytes := recs.flatMap fun p => frame p.1 p.2

@[simp] theorem frames_nil : frames [] = [] := rfl

@[simp] theorem frames_cons (opcode : UInt8) (body : Bytes) (recs : List (UInt8 × Bytes)) :
    frames ((opcode, body) :: recs) = frame opcode body ++ frames recs := rfl

@[simp] theorem frames_append (recs recs' : List (UInt8 × Bytes)) :
    frames (recs ++ recs') = frames recs ++ frames recs' :=
  List.flatMap_append

/-! ## Fields -/

/-- The UTF-8 bytes of a string. -/
def utf8 (s : String) : Bytes := s.toByteArray.data.toList

def readU8 : Read BinError UInt8 := UInt8.ofNat <$> readLe .io 1
def readU16 : Read BinError UInt16 := UInt16.ofNat <$> readLe .io 2
def readU32 : Read BinError UInt32 := UInt32.ofNat <$> readLe .io 4
def readU64 : Read BinError UInt64 := UInt64.ofNat <$> readLe .io 8

def u8 (n : UInt8) : Bytes := le 1 n.toNat
def u16 (n : UInt16) : Bytes := le 2 n.toNat
def u32 (n : UInt32) : Bytes := le 4 n.toNat
def u64 (n : UInt64) : Bytes := le 8 n.toNat

theorem reads_u8 (n : UInt8) : Reads readU8 (u8 n) n := by
  have h := (Reads.le BinError.io (show n.toNat < 256 ^ 1 from n.toNat_lt)).map UInt8.ofNat
  rwa [UInt8.ofNat_toNat] at h

theorem reads_u16 (n : UInt16) : Reads readU16 (u16 n) n := by
  have h := (Reads.le BinError.io (show n.toNat < 256 ^ 2 from n.toNat_lt)).map UInt16.ofNat
  rwa [UInt16.ofNat_toNat] at h

theorem reads_u32 (n : UInt32) : Reads readU32 (u32 n) n := by
  have h := (Reads.le BinError.io (show n.toNat < 256 ^ 4 from n.toNat_lt)).map UInt32.ofNat
  rwa [UInt32.ofNat_toNat] at h

theorem reads_u64 (n : UInt64) : Reads readU64 (u64 n) n := by
  have h := (Reads.le BinError.io (show n.toNat < 256 ^ 8 from n.toNat_lt)).map UInt64.ofNat
  rwa [UInt64.ofNat_toNat] at h

theorem takes_u16 : Takes readU16 2 := (Takes.le BinError.io 2).map _
theorem takes_u32 : Takes readU32 4 := (Takes.le BinError.io 4).map _
theorem takes_u64 : Takes readU64 8 := (Takes.le BinError.io 8).map _

@[simp] theorem length_u16 (n : UInt16) : (u16 n).length = 2 := length_le ..
@[simp] theorem length_u32 (n : UInt32) : (u32 n).length = 4 := length_le ..
@[simp] theorem length_u64 (n : UInt64) : (u64 n).length = 8 := length_le ..

/-- `write_string`: a 32-bit length and the bytes. -/
def writeString (s : String) : Bytes := le 4 (utf8 s).length ++ utf8 s

/-- `McapString`: the length, that many bytes, and the UTF-8 check. -/
def readString : Read BinError String := do
  let len ← readLe .io 4
  let bs ← readExact .io len
  let c ← get
  match String.fromUTF8? ⟨bs.toArray⟩ with
  | some s => pure s
  | none => throw (.fromUtf8 (c.pos - len))

/-- A string whose length fits the 32-bit field. -/
def StringFits (s : String) : Prop := (utf8 s).length < 2 ^ 32

instance (s : String) : Decidable (StringFits s) := inferInstanceAs (Decidable (_ < _))

theorem fromUTF8?_utf8 (s : String) : String.fromUTF8? ⟨(utf8 s).toArray⟩ = some s := by
  have h : (⟨(utf8 s).toArray⟩ : ByteArray) = s.toByteArray := by simp [utf8]
  rw [h, String.fromUTF8?, dif_pos s.isValidUTF8]
  rfl

theorem reads_string {s : String} (h : StringFits s) : Reads readString (writeString s) s := by
  refine (Reads.le BinError.io (show _ < 256 ^ 4 from h)).bind ?_
  intro rest pos
  have hbs := Reads.exact BinError.io (utf8 s) rest pos
  show (do let x ← readExact BinError.io (utf8 s).length ⟨utf8 s ++ rest, pos⟩; _) = _
  rw [hbs]
  show (match String.fromUTF8? ⟨(utf8 s).toArray⟩ with
    | some s => pure s
    | none => throw _ : Read BinError String) _ = _
  rw [fromUTF8?_utf8]
  rfl

@[simp] theorem length_writeString (s : String) :
    (writeString s).length = 4 + (utf8 s).length := by
  simp [writeString]

/-! ## Byte-counted maps and arrays -/

/-- One entry of a string map. -/
def stringEntry (e : String × String) : Bytes := writeString e.1 ++ writeString e.2

/-- `write_string_map`: the length of the entries in bytes, then the entries. -/
def writeStringMap (m : BTreeMap String String) : Bytes :=
  le 4 (m.toList.flatMap stringEntry).length ++ m.toList.flatMap stringEntry

/-- The loop body of the map parsers: read an entry, and refuse a key that is
there already. -/
def insertEntry {K V : Type} [Ord K] [Std.TransOrd K] (entry : Read BinError (K × V)) (pos : Nat)
    (m : BTreeMap K V) : Read BinError (BTreeMap K V) := do
  let e ← entry
  if m.contains e.1 then throw (.custom pos "Duplicate keys in map") else pure (m.insert e.1 e.2)

/-- `parse_string_map` and `parse_int_map`: entries are read until the position
reaches the announced number of bytes. -/
def readMap {K V : Type} [Ord K] [Std.TransOrd K] (entry : Read BinError (K × V)) :
    Read BinError (BTreeMap K V) := do
  let byteLen ← readLe .io 4
  let c ← get
  readFold (c.pos + byteLen) (insertEntry entry c.pos) (c.rest.length + 1) ∅

/-- `parse_vec`: elements are read until the position reaches the announced
number of bytes. -/
def readVec {α : Type} (elem : Read BinError α) : Read BinError (List α) := do
  let byteLen ← readLe .io 4
  let c ← get
  readFold (c.pos + byteLen) (fun xs => do let x ← elem; pure (xs ++ [x])) (c.rest.length + 1) []

/-- A string map entry is two strings. -/
def readStringEntry : Read BinError (String × String) := do
  let k ← readString
  let v ← readString
  pure (k, v)

/-- `parse_string_map`. -/
def readStringMap : Read BinError (BTreeMap String String) := readMap readStringEntry

/-- One entry of an integer map. -/
def intEntry (e : UInt16 × UInt64) : Bytes := u16 e.1 ++ u64 e.2

/-- `write_int_map`, at the only key and value types in use. -/
def writeIntMap (m : BTreeMap UInt16 UInt64) : Bytes :=
  le 4 (m.toList.flatMap intEntry).length ++ m.toList.flatMap intEntry

def readIntEntry : Read BinError (UInt16 × UInt64) := do
  let k ← readU16
  let v ← readU64
  pure (k, v)

/-- `parse_int_map`. -/
def readIntMap : Read BinError (BTreeMap UInt16 UInt64) := readMap readIntEntry

/-- A map whose strings and whose length in bytes fit their 32-bit fields. -/
structure StringMapFits (m : BTreeMap String String) : Prop where
  entry : ∀ e ∈ m.toList, StringFits e.1 ∧ StringFits e.2
  size : (m.toList.flatMap stringEntry).length < 2 ^ 32

theorem stringMapFits_empty : StringMapFits ∅ where
  entry _ h := by cases h
  size := by decide

theorem length_le_flatMap {α : Type} {enc : α → Bytes} {l : List α} (h : ∀ x ∈ l, enc x ≠ []) :
    l.length ≤ (l.flatMap enc).length := by
  induction l with
  | nil => exact Nat.zero_le _
  | cons x l ih =>
    have hx : 0 < (enc x).length := List.length_pos_iff.mpr (h x List.mem_cons_self)
    have hl := ih (fun y hy => h y (List.mem_cons_of_mem _ hy))
    simp only [List.length_cons, List.flatMap_cons, List.length_append]
    omega

/-- **Round trip of a byte-counted collection**, from the round trip of one
element: the loop reads exactly the announced bytes. -/
theorem reads_counted {α β : Type} (enc : α → Bytes) (step : Nat → β → Read BinError β)
    (next : β → α → β) (b : β) (xs : List α)
    (hstep : ∀ pos pre x post, xs = pre ++ x :: post →
      Reads (step pos (pre.foldl next b)) (enc x) (next (pre.foldl next b) x))
    (hne : ∀ x ∈ xs, enc x ≠ []) (hsize : (xs.flatMap enc).length < 2 ^ 32) :
    Reads (do
      let byteLen ← readLe BinError.io 4
      let c ← get
      readFold (c.pos + byteLen) (step c.pos) (c.rest.length + 1) b)
      (le 4 (xs.flatMap enc).length ++ xs.flatMap enc) (xs.foldl next b) := by
  refine (Reads.le BinError.io (show _ < 256 ^ 4 from hsize)).bind ?_
  intro rest pos
  have hlen := length_le_flatMap hne
  show readFold (pos + (xs.flatMap enc).length) (step pos)
    ((xs.flatMap enc ++ rest).length + 1) b ⟨xs.flatMap enc ++ rest, pos⟩ = _
  refine Reads.fold xs b _ ?_ (fun pre x post he => hstep pos pre x post he) hne rest pos rfl
  rw [List.length_append]
  omega

/-- **Round trip of a map.** -/
theorem reads_map {K V : Type} [Ord K] [Std.TransOrd K] [Std.LawfulEqOrd K]
    {entry : Read BinError (K × V)} {enc : K × V → Bytes} {m : BTreeMap K V}
    (hentry : ∀ e ∈ m.toList, Reads entry (enc e) e) (hne : ∀ e ∈ m.toList, enc e ≠ [])
    (hsize : (m.toList.flatMap enc).length < 2 ^ 32) :
    Reads (readMap entry) (le 4 (m.toList.flatMap enc).length ++ m.toList.flatMap enc) m := by
  have h := reads_counted enc (insertEntry entry) (fun acc e => acc.insert e.1 e.2)
    (∅ : BTreeMap K V) m.toList ?_ hne hsize
  · rwa [show m.toList.foldl (fun acc e => acc.insert e.1 e.2) ∅ = m from
      BTreeMap.insertAll_toList m] at h
  · intro pos pre x post he
    have hfresh : x.1 ∉ pre.map Prod.fst := by
      have hn := BTreeMap.nodup_keys_toList m
      rw [he, List.map_append, List.map_cons, List.nodup_middle, List.nodup_cons] at hn
      exact fun hmem => hn.1 (List.mem_append_left _ hmem)
    have hc : Std.ExtTreeMap.contains (pre.foldl (fun acc e => acc.insert e.1 e.2) ∅) x.1 = false :=
      BTreeMap.contains_insertAll_empty (V := V) hfresh
    rw [← List.append_nil (enc x)]
    refine (hentry x (by rw [he]; simp)).bind ?_
    rw [hc]
    exact Reads.pure _

/-- **Round trip of an array.** -/
theorem reads_vec {α : Type} {elem : Read BinError α} {enc : α → Bytes} {xs : List α}
    (helem : ∀ x ∈ xs, Reads elem (enc x) x) (hne : ∀ x ∈ xs, enc x ≠ [])
    (hsize : (xs.flatMap enc).length < 2 ^ 32) :
    Reads (readVec elem) (le 4 (xs.flatMap enc).length ++ xs.flatMap enc) xs := by
  have hfold : ∀ l : List α, l.foldl (fun acc x => acc ++ [x]) [] = l := fun l => by
    have hacc : ∀ acc : List α, l.foldl (fun acc x => acc ++ [x]) acc = acc ++ l := by
      induction l with
      | nil => simp
      | cons x l ih => intro acc; rw [List.foldl_cons, ih, List.append_assoc]; rfl
    exact hacc []
  have h := reads_counted enc (fun _ acc => do let x ← elem; pure (acc ++ [x]))
    (fun acc x => acc ++ [x]) [] xs ?_ hne hsize
  · rwa [hfold] at h
  · intro pos pre x post he
    exact (helem x (by rw [he]; simp)).bind_pure _

theorem reads_stringEntry {e : String × String} (h : StringFits e.1 ∧ StringFits e.2) :
    Reads readStringEntry (stringEntry e) e := by
  exact (reads_string h.1).bind ((reads_string h.2).bind_pure (Prod.mk e.1))

theorem reads_intEntry (e : UInt16 × UInt64) : Reads readIntEntry (intEntry e) e := by
  exact (reads_u16 e.1).bind ((reads_u64 e.2).bind_pure (Prod.mk e.1))

theorem reads_stringMap {m : BTreeMap String String} (h : StringMapFits m) :
    Reads readStringMap (writeStringMap m) m :=
  reads_map (fun e he => reads_stringEntry (h.entry e he))
    (fun e _ he => by simpa [stringEntry] using congrArg List.length he) h.size

theorem reads_intMap {m : BTreeMap UInt16 UInt64}
    (h : (m.toList.flatMap intEntry).length < 2 ^ 32) :
    Reads readIntMap (writeIntMap m) m :=
  reads_map (fun e _ => reads_intEntry e)
    (fun e _ he => by simpa [intEntry] using congrArg List.length he) h

/-! ## Record bodies -/

/-- `records::Header`. -/
structure Header where
  profile : String
  library : String
deriving DecidableEq

/-- `records::Footer`. -/
structure Footer where
  summaryStart : UInt64
  summaryOffsetStart : UInt64
  summaryCrc : UInt32
deriving DecidableEq

/-- `records::SchemaHeader`. -/
structure SchemaHeader where
  id : UInt16
  name : String
  encoding : String
deriving DecidableEq

/-- `records::Channel`. -/
structure ChannelRecord where
  id : UInt16
  schemaId : UInt16
  topic : String
  messageEncoding : String
  metadata : BTreeMap String String
deriving DecidableEq

/-- `records::MessageHeader`. -/
structure MessageHeader where
  channelId : UInt16
  sequence : UInt32
  logTime : UInt64
  publishTime : UInt64
deriving DecidableEq

/-- `records::ChunkHeader`. -/
structure ChunkHeader where
  messageStartTime : UInt64
  messageEndTime : UInt64
  uncompressedSize : UInt64
  uncompressedCrc : UInt32
  compression : String
  compressedSize : UInt64
deriving DecidableEq

/-- `records::MessageIndexEntry`. -/
structure MessageIndexEntry where
  logTime : UInt64
  offset : UInt64
deriving DecidableEq

/-- `records::MessageIndex`. -/
structure MessageIndex where
  channelId : UInt16
  records : List MessageIndexEntry
deriving DecidableEq

/-- `records::ChunkIndex`. -/
structure ChunkIndex where
  messageStartTime : UInt64
  messageEndTime : UInt64
  chunkStartOffset : UInt64
  chunkLength : UInt64
  messageIndexOffsets : BTreeMap UInt16 UInt64
  messageIndexLength : UInt64
  compression : String
  compressedSize : UInt64
  uncompressedSize : UInt64
deriving DecidableEq

/-- `records::AttachmentHeader`. -/
structure AttachmentHeader where
  logTime : UInt64
  createTime : UInt64
  name : String
  mediaType : String
deriving DecidableEq

/-- `records::AttachmentIndex`. -/
structure AttachmentIndex where
  offset : UInt64
  length : UInt64
  logTime : UInt64
  createTime : UInt64
  dataSize : UInt64
  name : String
  mediaType : String
deriving DecidableEq

/-- `records::Statistics`. -/
structure Statistics where
  messageCount : UInt64
  schemaCount : UInt16
  channelCount : UInt32
  attachmentCount : UInt32
  metadataCount : UInt32
  chunkCount : UInt32
  messageStartTime : UInt64
  messageEndTime : UInt64
  channelMessageCounts : BTreeMap UInt16 UInt64
deriving DecidableEq

/-- `records::Metadata`. -/
structure Metadata where
  name : String
  metadata : BTreeMap String String
deriving DecidableEq

/-- `records::MetadataIndex`. -/
structure MetadataIndex where
  offset : UInt64
  length : UInt64
  name : String
deriving DecidableEq

/-- `records::SummaryOffset`. -/
structure SummaryOffset where
  groupOpcode : UInt8
  groupStart : UInt64
  groupLength : UInt64
deriving DecidableEq

/-- `records::DataEnd`. -/
structure DataEnd where
  dataSectionCrc : UInt32
deriving DecidableEq

def Header.bytes (h : Header) : Bytes := writeString h.profile ++ writeString h.library

def Header.read : Read BinError Header := do
  let profile ← readString
  let library ← readString
  pure { profile, library }

def Footer.bytes (f : Footer) : Bytes :=
  u64 f.summaryStart ++ u64 f.summaryOffsetStart ++ u32 f.summaryCrc

def Footer.read : Read BinError Footer := do
  let summaryStart ← readU64
  let summaryOffsetStart ← readU64
  let summaryCrc ← readU32
  pure { summaryStart, summaryOffsetStart, summaryCrc }

theorem Footer.takes_read : Takes Footer.read 20 :=
  takes_u64.bind fun _ => takes_u64.bind fun _ => takes_u32.bind fun _ => Takes.pure _

def SchemaHeader.bytes (h : SchemaHeader) : Bytes :=
  u16 h.id ++ writeString h.name ++ writeString h.encoding

def SchemaHeader.read : Read BinError SchemaHeader := do
  let id ← readU16
  let name ← readString
  let encoding ← readString
  pure { id, name, encoding }

def ChannelRecord.bytes (c : ChannelRecord) : Bytes :=
  u16 c.id ++ u16 c.schemaId ++ writeString c.topic ++ writeString c.messageEncoding ++
    writeStringMap c.metadata

def ChannelRecord.read : Read BinError ChannelRecord := do
  let id ← readU16
  let schemaId ← readU16
  let topic ← readString
  let messageEncoding ← readString
  let metadata ← readStringMap
  pure { id, schemaId, topic, messageEncoding, metadata }

def MessageHeader.bytes (h : MessageHeader) : Bytes :=
  u16 h.channelId ++ u32 h.sequence ++ u64 h.logTime ++ u64 h.publishTime

def MessageHeader.read : Read BinError MessageHeader := do
  let channelId ← readU16
  let sequence ← readU32
  let logTime ← readU64
  let publishTime ← readU64
  pure { channelId, sequence, logTime, publishTime }

theorem MessageHeader.takes_read : Takes MessageHeader.read 22 :=
  takes_u16.bind fun _ => takes_u32.bind fun _ => takes_u64.bind fun _ => takes_u64.bind fun _ =>
    Takes.pure _

def ChunkHeader.bytes (h : ChunkHeader) : Bytes :=
  u64 h.messageStartTime ++ u64 h.messageEndTime ++ u64 h.uncompressedSize ++
    u32 h.uncompressedCrc ++ writeString h.compression ++ u64 h.compressedSize

def ChunkHeader.read : Read BinError ChunkHeader := do
  let messageStartTime ← readU64
  let messageEndTime ← readU64
  let uncompressedSize ← readU64
  let uncompressedCrc ← readU32
  let compression ← readString
  let compressedSize ← readU64
  pure { messageStartTime, messageEndTime, uncompressedSize, uncompressedCrc, compression,
         compressedSize }

def MessageIndexEntry.bytes (e : MessageIndexEntry) : Bytes := u64 e.logTime ++ u64 e.offset

def MessageIndexEntry.read : Read BinError MessageIndexEntry := do
  let logTime ← readU64
  let offset ← readU64
  pure { logTime, offset }

/-- `write_vec` of the index entries after the channel id. -/
def MessageIndex.bytes (i : MessageIndex) : Bytes :=
  u16 i.channelId ++ (le 4 (i.records.flatMap MessageIndexEntry.bytes).length ++
    i.records.flatMap MessageIndexEntry.bytes)

def MessageIndex.read : Read BinError MessageIndex := do
  let channelId ← readU16
  let records ← readVec MessageIndexEntry.read
  pure { channelId, records }

def ChunkIndex.bytes (i : ChunkIndex) : Bytes :=
  u64 i.messageStartTime ++ u64 i.messageEndTime ++ u64 i.chunkStartOffset ++ u64 i.chunkLength ++
    writeIntMap i.messageIndexOffsets ++ u64 i.messageIndexLength ++ writeString i.compression ++
    u64 i.compressedSize ++ u64 i.uncompressedSize

def ChunkIndex.read : Read BinError ChunkIndex := do
  let messageStartTime ← readU64
  let messageEndTime ← readU64
  let chunkStartOffset ← readU64
  let chunkLength ← readU64
  let messageIndexOffsets ← readIntMap
  let messageIndexLength ← readU64
  let compression ← readString
  let compressedSize ← readU64
  let uncompressedSize ← readU64
  pure { messageStartTime, messageEndTime, chunkStartOffset, chunkLength, messageIndexOffsets,
         messageIndexLength, compression, compressedSize, uncompressedSize }

def AttachmentHeader.bytes (h : AttachmentHeader) : Bytes :=
  u64 h.logTime ++ u64 h.createTime ++ writeString h.name ++ writeString h.mediaType

def AttachmentHeader.read : Read BinError AttachmentHeader := do
  let logTime ← readU64
  let createTime ← readU64
  let name ← readString
  let mediaType ← readString
  pure { logTime, createTime, name, mediaType }

def AttachmentIndex.bytes (i : AttachmentIndex) : Bytes :=
  u64 i.offset ++ u64 i.length ++ u64 i.logTime ++ u64 i.createTime ++ u64 i.dataSize ++
    writeString i.name ++ writeString i.mediaType

def AttachmentIndex.read : Read BinError AttachmentIndex := do
  let offset ← readU64
  let length ← readU64
  let logTime ← readU64
  let createTime ← readU64
  let dataSize ← readU64
  let name ← readString
  let mediaType ← readString
  pure { offset, length, logTime, createTime, dataSize, name, mediaType }

def Statistics.bytes (s : Statistics) : Bytes :=
  u64 s.messageCount ++ u16 s.schemaCount ++ u32 s.channelCount ++ u32 s.attachmentCount ++
    u32 s.metadataCount ++ u32 s.chunkCount ++ u64 s.messageStartTime ++ u64 s.messageEndTime ++
    writeIntMap s.channelMessageCounts

def Statistics.read : Read BinError Statistics := do
  let messageCount ← readU64
  let schemaCount ← readU16
  let channelCount ← readU32
  let attachmentCount ← readU32
  let metadataCount ← readU32
  let chunkCount ← readU32
  let messageStartTime ← readU64
  let messageEndTime ← readU64
  let channelMessageCounts ← readIntMap
  pure { messageCount, schemaCount, channelCount, attachmentCount, metadataCount, chunkCount,
         messageStartTime, messageEndTime, channelMessageCounts }

def Metadata.bytes (m : Metadata) : Bytes := writeString m.name ++ writeStringMap m.metadata

def Metadata.read : Read BinError Metadata := do
  let name ← readString
  let metadata ← readStringMap
  pure { name, metadata }

def MetadataIndex.bytes (i : MetadataIndex) : Bytes :=
  u64 i.offset ++ u64 i.length ++ writeString i.name

def MetadataIndex.read : Read BinError MetadataIndex := do
  let offset ← readU64
  let length ← readU64
  let name ← readString
  pure { offset, length, name }

def SummaryOffset.bytes (o : SummaryOffset) : Bytes :=
  u8 o.groupOpcode ++ u64 o.groupStart ++ u64 o.groupLength

def SummaryOffset.read : Read BinError SummaryOffset := do
  let groupOpcode ← readU8
  let groupStart ← readU64
  let groupLength ← readU64
  pure { groupOpcode, groupStart, groupLength }

def DataEnd.bytes (d : DataEnd) : Bytes := u32 d.dataSectionCrc

def DataEnd.read : Read BinError DataEnd := do
  let dataSectionCrc ← readU32
  pure { dataSectionCrc }

theorem DataEnd.takes_read : Takes DataEnd.read 4 := takes_u32.bind fun _ => Takes.pure _

end Mcap

import Mcap.TsStreamReader
import Mcap.Positions

/-! # Writing records of the TypeScript library

`BufferBuilder.ts` and `McapRecordBuilder.ts`.  A builder has a buffer and a write head, which goes
back to the length of a record when its fields are there; what is behind the head is what was written
before the last `reset`.  The capacity of the buffer is not modelled: it grows where it has to, with
its contents.

`McapWriter` and `ChunkBuilder` pass no options to their record builders, so that no record is padded.

`write_spec` says what comes of all that: a record is added to the buffer.  Numbers wrap in their
fields.
-/
namespace Mcap
namespace Ts

open McapStreamReader (setBytes)

/-! ## The buffer -/

structure BufferBuilder where
  fullBuffer : Bytes
  offset : Nat
deriving DecidableEq

namespace BufferBuilder

def new : BufferBuilder := ⟨[], 0⟩

def length (b : BufferBuilder) : Nat := b.offset

def buffer (b : BufferBuilder) : Bytes := b.fullBuffer.take b.offset

def bufferView (b : BufferBuilder) (byteOffset byteLength : Nat) : Bytes :=
  (b.fullBuffer.drop byteOffset).take byteLength

/-- Bytes at the write head. -/
def bytes (data : Bytes) (b : BufferBuilder) : BufferBuilder :=
  ⟨setBytes b.fullBuffer data b.offset, b.offset + data.length⟩

def uint8 (value : Nat) (b : BufferBuilder) : BufferBuilder := b.bytes (le 1 value)
def uint16 (value : Nat) (b : BufferBuilder) : BufferBuilder := b.bytes (le 2 value)
def uint32 (value : Nat) (b : BufferBuilder) : BufferBuilder := b.bytes (le 4 value)
def uint64 (value : Nat) (b : BufferBuilder) : BufferBuilder := b.bytes (le 8 value)

def string (value : String) (b : BufferBuilder) : BufferBuilder :=
  (b.uint32 (utf8 value).length).bytes (utf8 value)

def seek (offset : Nat) (b : BufferBuilder) : BufferBuilder := { b with offset }

def reset (b : BufferBuilder) : BufferBuilder := { b with offset := 0 }

section
variable {K V : Type} (write1 : K → BufferBuilder → BufferBuilder)
  (write2 : V → BufferBuilder → BufferBuilder)

def tupleArray (array : List (K × V)) (b : BufferBuilder) : BufferBuilder :=
  let sizeOffset := b.offset
  let b := array.foldl (fun b e => write2 e.2 (write1 e.1 b)) (b.uint32 0)
  let currentOffset := b.offset
  ((b.seek sizeOffset).uint32 (currentOffset - sizeOffset - 4)).seek currentOffset

end

end BufferBuilder

/-! ## The records -/

abbrev McapRecordBuilder := BufferBuilder

namespace McapRecordBuilder

open BufferBuilder

/-- A record: its fields, behind a placeholder for their length.  The length of the record is
returned. -/
def record (opcode : UInt8) (fields : BufferBuilder → BufferBuilder) (b : McapRecordBuilder) :
    McapRecordBuilder × Nat :=
  let b := b.uint8 opcode.toNat
  let startPosition := b.length
  let b := fields (b.uint64 0)
  let endPosition := b.length
  (((b.seek startPosition).uint64 (endPosition - startPosition - 8)).seek endPosition,
    endPosition - startPosition + 1)

def writeMagic (b : McapRecordBuilder) : McapRecordBuilder := b.bytes MAGIC

def writeHeader (header : Header) : McapRecordBuilder → McapRecordBuilder × Nat :=
  record Opcode.HEADER fun b => (b.string header.profile).string header.library

def writeFooter (footer : Footer) (b : McapRecordBuilder) : McapRecordBuilder × Nat :=
  (((((b.uint8 Opcode.FOOTER.toNat).uint64 20).uint64 footer.summaryStart).uint64
    footer.summaryOffsetStart).uint32 footer.summaryCrc, 20)

def writeSchema (schema : Schema) : McapRecordBuilder → McapRecordBuilder × Nat :=
  record Opcode.SCHEMA fun b =>
    ((((b.uint16 schema.id).string schema.name).string schema.encoding).uint32
      schema.data.length).bytes schema.data

def writeChannel (info : Channel) : McapRecordBuilder → McapRecordBuilder × Nat :=
  record Opcode.CHANNEL fun b =>
    ((((b.uint16 info.id).uint16 info.schemaId).string info.topic).string
      info.messageEncoding).tupleArray string string info.metadata.items

def writeMessage (message : Message) (b : McapRecordBuilder) : McapRecordBuilder :=
  (record Opcode.MESSAGE (fun b =>
    ((((b.uint16 message.channelId).uint32 message.sequence).uint64 message.logTime).uint64
      message.publishTime).bytes message.data) b).1

def writeAttachment (attachment : Attachment) : McapRecordBuilder → McapRecordBuilder × Nat :=
  record Opcode.ATTACHMENT fun b =>
    let crcStartPosition := b.length
    let b := (((((b.uint64 attachment.logTime).uint64 attachment.createTime).string
      attachment.name).string attachment.mediaType).uint64 attachment.data.length).bytes
        attachment.data
    b.uint32 (crc32 (b.bufferView crcStartPosition (b.length - crcStartPosition))).toNat

def writeAttachmentIndex (attachmentIndex : AttachmentIndex) :
    McapRecordBuilder → McapRecordBuilder × Nat :=
  record Opcode.ATTACHMENT_INDEX fun b =>
    ((((((b.uint64 attachmentIndex.offset).uint64 attachmentIndex.length).uint64
      attachmentIndex.logTime).uint64 attachmentIndex.createTime).uint64
        attachmentIndex.dataSize).string attachmentIndex.name).string attachmentIndex.mediaType

def writeChunk (chunk : Chunk) : McapRecordBuilder → McapRecordBuilder × Nat :=
  record Opcode.CHUNK fun b =>
    ((((((b.uint64 chunk.messageStartTime).uint64 chunk.messageEndTime).uint64
      chunk.uncompressedSize).uint32 chunk.uncompressedCrc).string chunk.compression).uint64
        chunk.records.length).bytes chunk.records

def writeChunkIndex (chunkIndex : ChunkIndex) : McapRecordBuilder → McapRecordBuilder × Nat :=
  record Opcode.CHUNK_INDEX fun b =>
    let b := ((((b.uint64 chunkIndex.messageStartTime).uint64 chunkIndex.messageEndTime).uint64
      chunkIndex.chunkStartOffset).uint64 chunkIndex.chunkLength).uint32
        (chunkIndex.messageIndexOffsets.items.length * 10)
    let b := chunkIndex.messageIndexOffsets.items.foldl
      (fun b e => (b.uint16 e.1).uint64 e.2) b
    (((b.uint64 chunkIndex.messageIndexLength).string chunkIndex.compression).uint64
      chunkIndex.compressedSize).uint64 chunkIndex.uncompressedSize

def writeMessageIndex (messageIndex : MessageIndex) : McapRecordBuilder → McapRecordBuilder × Nat :=
  record Opcode.MESSAGE_INDEX fun b =>
    messageIndex.records.foldl (fun b e => (b.uint64 e.1).uint64 e.2)
      ((b.uint16 messageIndex.channelId).uint32 (messageIndex.records.length * 16))

def writeMetadata (metadata : Metadata) : McapRecordBuilder → McapRecordBuilder × Nat :=
  record Opcode.METADATA fun b =>
    (b.string metadata.name).tupleArray string string metadata.metadata.items

def writeMetadataIndex (metadataIndex : MetadataIndex) :
    McapRecordBuilder → McapRecordBuilder × Nat :=
  record Opcode.METADATA_INDEX fun b =>
    ((b.uint64 metadataIndex.offset).uint64 metadataIndex.length).string metadataIndex.name

def writeSummaryOffset (summaryOffset : SummaryOffset) :
    McapRecordBuilder → McapRecordBuilder × Nat :=
  record Opcode.SUMMARY_OFFSET fun b =>
    ((b.uint8 summaryOffset.groupOpcode).uint64 summaryOffset.groupStart).uint64
      summaryOffset.groupLength

def writeStatistics (statistics : Statistics) : McapRecordBuilder → McapRecordBuilder × Nat :=
  record Opcode.STATISTICS fun b =>
    ((((((((b.uint64 statistics.messageCount).uint16 statistics.schemaCount).uint32
      statistics.channelCount).uint32 statistics.attachmentCount).uint32
        statistics.metadataCount).uint32 statistics.chunkCount).uint64
          statistics.messageStartTime).uint64 statistics.messageEndTime).tupleArray uint16 uint64
            statistics.channelMessageCounts.items

def writeDataEnd (dataEnd : DataEnd) (b : McapRecordBuilder) : McapRecordBuilder × Nat :=
  (((b.uint8 Opcode.DATA_END.toNat).uint64 4).uint32 dataEnd.dataSectionCrc, 4)

end McapRecordBuilder

/-! ## The bytes of a record -/

def stringBytes (value : String) : Bytes := le 4 (utf8 value).length ++ utf8 value

/-- The entries of a map, behind their length. -/
def tupleBytes {K V : Type} (key : K → Bytes) (value : V → Bytes) (items : List (K × V)) : Bytes :=
  le 4 (items.flatMap fun e => key e.1 ++ value e.2).length ++
    items.flatMap fun e => key e.1 ++ value e.2

namespace TypedMcapRecord

def opcode : TypedMcapRecord → UInt8
  | .header _ => Opcode.HEADER
  | .footer _ => Opcode.FOOTER
  | .schema _ => Opcode.SCHEMA
  | .channel _ => Opcode.CHANNEL
  | .message _ => Opcode.MESSAGE
  | .chunk _ => Opcode.CHUNK
  | .messageIndex _ => Opcode.MESSAGE_INDEX
  | .chunkIndex _ => Opcode.CHUNK_INDEX
  | .attachment _ => Opcode.ATTACHMENT
  | .attachmentIndex _ => Opcode.ATTACHMENT_INDEX
  | .statistics _ => Opcode.STATISTICS
  | .metadata _ => Opcode.METADATA
  | .metadataIndex _ => Opcode.METADATA_INDEX
  | .summaryOffset _ => Opcode.SUMMARY_OFFSET
  | .dataEnd _ => Opcode.DATA_END
  | .unknown record => record.opcode

/-- The fields of an attachment, without the checksum. -/
def attachmentFields (a : Attachment) : Bytes :=
  le 8 a.logTime ++ (le 8 a.createTime ++ (stringBytes a.name ++ (stringBytes a.mediaType ++
    (le 8 a.data.length ++ a.data))))

/-- **The fields of a record.** -/
def body : TypedMcapRecord → Bytes
  | .header r => stringBytes r.profile ++ stringBytes r.library
  | .footer r => le 8 r.summaryStart ++ (le 8 r.summaryOffsetStart ++ le 4 r.summaryCrc)
  | .schema r => le 2 r.id ++ (stringBytes r.name ++ (stringBytes r.encoding ++
      (le 4 r.data.length ++ r.data)))
  | .channel r => le 2 r.id ++ (le 2 r.schemaId ++ (stringBytes r.topic ++
      (stringBytes r.messageEncoding ++ tupleBytes stringBytes stringBytes r.metadata.items)))
  | .message r => le 2 r.channelId ++ (le 4 r.sequence ++ (le 8 r.logTime ++
      (le 8 r.publishTime ++ r.data)))
  | .chunk r => le 8 r.messageStartTime ++ (le 8 r.messageEndTime ++ (le 8 r.uncompressedSize ++
      (le 4 r.uncompressedCrc ++ (stringBytes r.compression ++ (le 8 r.records.length ++
        r.records)))))
  | .messageIndex r => le 2 r.channelId ++ (le 4 (r.records.length * 16) ++
      r.records.flatMap fun e => le 8 e.1 ++ le 8 e.2)
  | .chunkIndex r => le 8 r.messageStartTime ++ (le 8 r.messageEndTime ++
      (le 8 r.chunkStartOffset ++ (le 8 r.chunkLength ++
        (le 4 (r.messageIndexOffsets.items.length * 10) ++
          ((r.messageIndexOffsets.items.flatMap fun e => le 2 e.1 ++ le 8 e.2) ++
            (le 8 r.messageIndexLength ++ (stringBytes r.compression ++ (le 8 r.compressedSize ++
              le 8 r.uncompressedSize))))))))
  | .attachment r => attachmentFields r ++ le 4 (crc32 (attachmentFields r)).toNat
  | .attachmentIndex r => le 8 r.offset ++ (le 8 r.length ++ (le 8 r.logTime ++
      (le 8 r.createTime ++ (le 8 r.dataSize ++ (stringBytes r.name ++ stringBytes r.mediaType)))))
  | .statistics r => le 8 r.messageCount ++ (le 2 r.schemaCount ++ (le 4 r.channelCount ++
      (le 4 r.attachmentCount ++ (le 4 r.metadataCount ++ (le 4 r.chunkCount ++
        (le 8 r.messageStartTime ++ (le 8 r.messageEndTime ++
          tupleBytes (le 2) (le 8) r.channelMessageCounts.items)))))))
  | .metadata r => stringBytes r.name ++ tupleBytes stringBytes stringBytes r.metadata.items
  | .metadataIndex r => le 8 r.offset ++ (le 8 r.length ++ stringBytes r.name)
  | .summaryOffset r => le 1 r.groupOpcode ++ (le 8 r.groupStart ++ le 8 r.groupLength)
  | .dataEnd r => le 4 r.dataSectionCrc
  | .unknown r => r.data

/-- The bytes of a record. -/
def bytes (r : TypedMcapRecord) : Bytes := frame r.opcode r.body

end TypedMcapRecord

/-! ## What is written -/

namespace BufferBuilder
variable {b : BufferBuilder}

/-- The write head is in the buffer. -/
def Sized (b : BufferBuilder) : Prop := b.offset ≤ b.fullBuffer.length

theorem sized_new : new.Sized := Nat.le_refl 0

theorem Sized.reset : b.reset.Sized := Nat.zero_le _

theorem buffer_reset : b.reset.buffer = [] := List.take_zero

theorem Sized.length_buffer (h : b.Sized) : b.buffer.length = b.offset := by
  unfold buffer
  rw [List.length_take]
  exact Nat.min_eq_left h

theorem fullBuffer_eq (b : BufferBuilder) : b.fullBuffer = b.buffer ++ b.fullBuffer.drop b.offset :=
  (List.take_append_drop _ _).symm

/-- **Bytes are added.** -/
def Puts (f : BufferBuilder → BufferBuilder) (data : Bytes) : Prop :=
  ∀ b, b.Sized → (f b).Sized ∧ (f b).buffer = b.buffer ++ data

theorem puts_id : Puts (fun b => b) [] := fun _ hb => ⟨hb, (List.append_nil _).symm⟩

theorem Puts.and {f g : BufferBuilder → BufferBuilder} {data more : Bytes} (hf : Puts f data)
    (hg : Puts g more) : Puts (fun b => g (f b)) (data ++ more) := by
  intro b hb
  obtain ⟨hsized, hbuffer⟩ := hf b hb
  obtain ⟨hsized', hbuffer'⟩ := hg (f b) hsized
  exact ⟨hsized', by rw [hbuffer', hbuffer, List.append_assoc]⟩

theorem puts_bytes (data : Bytes) : Puts (bytes data) data := by
  intro b hb
  have htake : (b.fullBuffer.take b.offset ++ data).length = b.offset + data.length := by
    rw [List.length_append, List.length_take, Nat.min_eq_left hb]
  refine ⟨?_, List.take_left' htake⟩
  show b.offset + data.length ≤ (b.fullBuffer.take b.offset ++ data ++ _).length
  rw [List.length_append, htake]
  exact Nat.le_add_right _ _

theorem puts_uint8 (n : Nat) : Puts (uint8 n) (le 1 n) := puts_bytes _
theorem puts_uint16 (n : Nat) : Puts (uint16 n) (le 2 n) := puts_bytes _
theorem puts_uint32 (n : Nat) : Puts (uint32 n) (le 4 n) := puts_bytes _
theorem puts_uint64 (n : Nat) : Puts (uint64 n) (le 8 n) := puts_bytes _

theorem puts_string (s : String) : Puts (string s) (stringBytes s) :=
  (puts_uint32 _).and (puts_bytes _)

theorem puts_foldl {α : Type} {f : BufferBuilder → α → BufferBuilder} {enc : α → Bytes}
    (h : ∀ a, Puts (fun b => f b a) (enc a)) (l : List α) :
    Puts (fun b => l.foldl f b) (l.flatMap enc) := by
  induction l with
  | nil => exact puts_id
  | cons a l ih => exact (h a).and ih

/-- **Bytes that are written over others.** -/
theorem patch (hb : b.Sized) {front old new rest : Bytes} (hbuffer : b.buffer = front ++ (old ++ rest))
    (hlength : new.length = old.length) :
    (((b.seek front.length).bytes new).seek b.offset).Sized ∧
      (((b.seek front.length).bytes new).seek b.offset).buffer = front ++ (new ++ rest) := by
  have hoffset : (front ++ (new ++ rest)).length = b.offset := by
    rw [← hb.length_buffer, hbuffer]
    simp only [List.length_append, hlength]
  have hfull : (((b.seek front.length).bytes new).seek b.offset).fullBuffer =
      (front ++ (new ++ rest)) ++ b.fullBuffer.drop b.offset := by
    show setBytes b.fullBuffer new front.length = _
    have heq := b.fullBuffer_eq
    rw [hbuffer] at heq
    generalize b.fullBuffer.drop b.offset = behind at heq ⊢
    rw [heq]
    unfold setBytes
    simp only [List.append_assoc]
    rw [List.take_left, ← List.drop_drop, List.drop_left, hlength, List.drop_left]
  constructor
  · show b.offset ≤ (((b.seek front.length).bytes new).seek b.offset).fullBuffer.length
    rw [hfull, List.length_append, hoffset]
    exact Nat.le_add_right _ _
  · show (((b.seek front.length).bytes new).seek b.offset).fullBuffer.take b.offset = _
    rw [hfull, List.take_left' hoffset]

theorem puts_tupleArray {K V : Type} {write1 : K → BufferBuilder → BufferBuilder}
    {write2 : V → BufferBuilder → BufferBuilder} {key : K → Bytes} {value : V → Bytes}
    (h1 : ∀ k, Puts (write1 k) (key k)) (h2 : ∀ v, Puts (write2 v) (value v)) (items : List (K × V)) :
    Puts (tupleArray write1 write2 items) (tupleBytes key value items) := by
  intro b hb
  obtain ⟨hsized, hbuffer⟩ := ((puts_uint32 0).and
    (puts_foldl (fun e : K × V => (h1 e.1).and (h2 e.2)) items)) b hb
  have hlength := hsized.length_buffer
  rw [hbuffer] at hlength
  simp only [List.length_append, length_le, hb.length_buffer] at hlength
  unfold tupleArray
  dsimp only at hsized hbuffer hlength ⊢
  generalize items.foldl (fun b e => write2 e.2 (write1 e.1 b)) (uint32 0 b) = filled at *
  have hpatch := fun n : Nat => patch hsized hbuffer ((length_le 4 n).trans (length_le 4 0).symm)
  have hbytes : filled.offset - b.offset - 4 = (items.flatMap fun e => key e.1 ++ value e.2).length := by
    omega
  rw [hb.length_buffer] at hpatch
  rw [hbytes]
  exact hpatch _

end BufferBuilder

namespace McapRecordBuilder
open BufferBuilder

/-- **A record is added**, and its length returned. -/
theorem record_spec {fields : BufferBuilder → BufferBuilder} {body : Bytes} (h : Puts fields body)
    (opcode : UInt8) {b : McapRecordBuilder} (hb : b.Sized) :
    (record opcode fields b).1.Sized ∧
      (record opcode fields b).1.buffer = b.buffer ++ frame opcode body ∧
      (record opcode fields b).2 = (frame opcode body).length := by
  obtain ⟨hsized, hbuffer⟩ := ((puts_uint8 opcode.toNat).and ((puts_uint64 0).and h)) b hb
  have hlength := hsized.length_buffer
  rw [hbuffer] at hlength
  simp only [List.length_append, length_le, hb.length_buffer] at hlength
  have hstart : (b.uint8 opcode.toNat).offset = b.offset + 1 := rfl
  have hopcode : le 1 opcode.toNat = [opcode] := by
    simp [le]
  unfold record BufferBuilder.length
  dsimp only at hsized hbuffer hlength ⊢
  rw [hstart]
  generalize fields (uint64 0 (uint8 opcode.toNat b)) = filled at *
  have hbytes : filled.offset - (b.offset + 1) - 8 = body.length := by omega
  rw [hbytes]
  have hfront : (b.buffer ++ le 1 opcode.toNat).length = b.offset + 1 := by
    rw [List.length_append, hb.length_buffer, length_le]
  have hparts : filled.buffer = (b.buffer ++ le 1 opcode.toNat) ++ (le 8 0 ++ body) := by
    rw [hbuffer, List.append_assoc]
  obtain ⟨hsized', hbuffer'⟩ := patch hsized hparts
    ((length_le 8 body.length).trans (length_le 8 0).symm)
  rw [hfront] at hsized' hbuffer'
  refine ⟨hsized', hbuffer'.trans ?_, ?_⟩
  · rw [hopcode, List.append_assoc]
    rfl
  · rw [length_frame]
    omega

/-- What a method that writes a record does. -/
def Writes (w : McapRecordBuilder → McapRecordBuilder × Nat) (r : TypedMcapRecord) : Prop :=
  ∀ b : McapRecordBuilder, b.Sized →
    (w b).1.Sized ∧ (w b).1.buffer = b.buffer ++ r.bytes ∧ (w b).2 = r.bytes.length

theorem writes_record {fields : BufferBuilder → BufferBuilder} (r : TypedMcapRecord)
    (h : Puts fields r.body) : Writes (record r.opcode fields) r := fun _ hb =>
  record_spec h r.opcode hb

theorem writes_header (r : Header) : Writes (writeHeader r) (.header r) :=
  writes_record (.header r) ((puts_string _).and (puts_string _))

theorem writes_schema (r : Schema) : Writes (writeSchema r) (.schema r) :=
  writes_record (.schema r) ((puts_uint16 _).and ((puts_string _).and ((puts_string _).and
    ((puts_uint32 _).and (puts_bytes _)))))

theorem writes_channel (r : Channel) : Writes (writeChannel r) (.channel r) :=
  writes_record (.channel r) ((puts_uint16 _).and ((puts_uint16 _).and ((puts_string _).and
    ((puts_string _).and (puts_tupleArray puts_string puts_string _)))))

theorem puts_message (r : Message) (b : McapRecordBuilder) (hb : b.Sized) :
    (writeMessage r b).Sized ∧ (writeMessage r b).buffer = b.buffer ++ (TypedMcapRecord.message r).bytes :=
  have h := writes_record (.message r) ((puts_uint16 _).and ((puts_uint32 _).and ((puts_uint64 _).and
    ((puts_uint64 _).and (puts_bytes _))))) b hb
  ⟨h.1, h.2.1⟩

theorem writes_attachment (r : Attachment) : Writes (writeAttachment r) (.attachment r) := by
  refine writes_record (.attachment r) fun b hb => ?_
  obtain ⟨hsized, hbuffer⟩ := ((puts_uint64 r.logTime).and ((puts_uint64 r.createTime).and
    ((puts_string r.name).and ((puts_string r.mediaType).and ((puts_uint64 r.data.length).and
      (puts_bytes r.data)))))) b hb
  dsimp only at hsized hbuffer ⊢
  generalize hfilled : bytes r.data _ = filled at *
  have hview : filled.bufferView b.length (filled.length - b.length) =
      TypedMcapRecord.attachmentFields r := by
    have hfull := filled.fullBuffer_eq
    have hlength := hsized.length_buffer
    rw [hbuffer, List.length_append, hb.length_buffer] at hlength
    rw [hbuffer, List.append_assoc] at hfull
    unfold bufferView BufferBuilder.length
    rw [hfull, List.drop_left' hb.length_buffer]
    exact List.take_left' (by rw [← hlength, Nat.add_sub_cancel_left])
  rw [hview]
  obtain ⟨hsized', hbuffer'⟩ := puts_uint32 (crc32 (TypedMcapRecord.attachmentFields r)).toNat filled
    hsized
  refine ⟨hsized', hbuffer'.trans ?_⟩
  rw [hbuffer, List.append_assoc]
  rfl

theorem writes_attachmentIndex (r : AttachmentIndex) :
    Writes (writeAttachmentIndex r) (.attachmentIndex r) := by
  have h := (puts_uint64 r.offset).and ((puts_uint64 r.length).and ((puts_uint64 r.logTime).and
    ((puts_uint64 r.createTime).and ((puts_uint64 r.dataSize).and ((puts_string r.name).and
      (puts_string r.mediaType))))))
  exact writes_record (.attachmentIndex r) h

theorem writes_chunk (r : Chunk) : Writes (writeChunk r) (.chunk r) := by
  have h := (puts_uint64 r.messageStartTime).and ((puts_uint64 r.messageEndTime).and
    ((puts_uint64 r.uncompressedSize).and ((puts_uint32 r.uncompressedCrc).and
      ((puts_string r.compression).and ((puts_uint64 r.records.length).and
        (puts_bytes r.records))))))
  exact writes_record (.chunk r) h

theorem writes_chunkIndex (r : ChunkIndex) : Writes (writeChunkIndex r) (.chunkIndex r) := by
  have hoffsets := puts_foldl (fun e : Nat × Nat => (puts_uint16 e.1).and (puts_uint64 e.2))
    r.messageIndexOffsets.items
  have h := (puts_uint64 r.messageStartTime).and ((puts_uint64 r.messageEndTime).and
    ((puts_uint64 r.chunkStartOffset).and ((puts_uint64 r.chunkLength).and
      ((puts_uint32 (r.messageIndexOffsets.items.length * 10)).and (hoffsets.and
        ((puts_uint64 r.messageIndexLength).and ((puts_string r.compression).and
          ((puts_uint64 r.compressedSize).and (puts_uint64 r.uncompressedSize)))))))))
  exact writes_record (.chunkIndex r) h

theorem writes_messageIndex (r : MessageIndex) : Writes (writeMessageIndex r) (.messageIndex r) := by
  have hentries := puts_foldl (fun e : Nat × Nat => (puts_uint64 e.1).and (puts_uint64 e.2)) r.records
  have h := (puts_uint16 r.channelId).and ((puts_uint32 (r.records.length * 16)).and hentries)
  exact writes_record (.messageIndex r) h

theorem writes_metadata (r : Metadata) : Writes (writeMetadata r) (.metadata r) := by
  have h := (puts_string r.name).and (puts_tupleArray puts_string puts_string r.metadata.items)
  exact writes_record (.metadata r) h

theorem writes_metadataIndex (r : MetadataIndex) :
    Writes (writeMetadataIndex r) (.metadataIndex r) := by
  have h := (puts_uint64 r.offset).and ((puts_uint64 r.length).and (puts_string r.name))
  exact writes_record (.metadataIndex r) h

theorem writes_summaryOffset (r : SummaryOffset) :
    Writes (writeSummaryOffset r) (.summaryOffset r) := by
  have h := (puts_uint8 r.groupOpcode).and ((puts_uint64 r.groupStart).and
    (puts_uint64 r.groupLength))
  exact writes_record (.summaryOffset r) h

theorem writes_statistics (r : Statistics) : Writes (writeStatistics r) (.statistics r) := by
  have h := (puts_uint64 r.messageCount).and ((puts_uint16 r.schemaCount).and
    ((puts_uint32 r.channelCount).and ((puts_uint32 r.attachmentCount).and
      ((puts_uint32 r.metadataCount).and ((puts_uint32 r.chunkCount).and
        ((puts_uint64 r.messageStartTime).and ((puts_uint64 r.messageEndTime).and
          (puts_tupleArray puts_uint16 puts_uint64 r.channelMessageCounts.items))))))))
  exact writes_record (.statistics r) h

theorem puts_footer (r : Footer) (b : McapRecordBuilder) (hb : b.Sized) :
    (writeFooter r b).1.Sized ∧
      (writeFooter r b).1.buffer = b.buffer ++ (TypedMcapRecord.footer r).bytes :=
  ((puts_uint8 Opcode.FOOTER.toNat).and ((puts_uint64 20).and ((puts_uint64 _).and ((puts_uint64 _).and
    (puts_uint32 _))))) b hb

theorem puts_dataEnd (r : DataEnd) (b : McapRecordBuilder) (hb : b.Sized) :
    (writeDataEnd r b).1.Sized ∧
      (writeDataEnd r b).1.buffer = b.buffer ++ (TypedMcapRecord.dataEnd r).bytes :=
  ((puts_uint8 Opcode.DATA_END.toNat).and ((puts_uint64 4).and (puts_uint32 _))) b hb

end McapRecordBuilder

end Ts
end Mcap

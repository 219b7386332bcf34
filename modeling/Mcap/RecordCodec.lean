import Mcap.McapError
import Mathlib.Data.Fintype.Card
import Mathlib.Data.UInt

/-! # Records as a whole

The sum type `Record` of `records.rs`, the body `write_record` emits for each kind
of record, and `parse_record` of `read.rs`, which reads a body back.

`parse_body` is the round trip: a record whose strings, maps and arrays fit their
32-bit lengths is read back from its body.
-/
namespace Mcap

/-! ## Round trips of the record bodies -/

theorem Header.reads {h : Header} (hp : StringFits h.profile) (hl : StringFits h.library) :
    Reads Header.read h.bytes h :=
  (reads_string hp).bind ((reads_string hl).bind_pure _)

theorem Footer.reads (f : Footer) : Reads Footer.read f.bytes f := by
  simp only [Footer.bytes, List.append_assoc]
  exact (reads_u64 f.summaryStart).bind ((reads_u64 f.summaryOffsetStart).bind
    ((reads_u32 f.summaryCrc).bind_pure _))

theorem SchemaHeader.reads {h : SchemaHeader} (hn : StringFits h.name)
    (he : StringFits h.encoding) : Reads SchemaHeader.read h.bytes h := by
  simp only [SchemaHeader.bytes, List.append_assoc]
  exact (reads_u16 h.id).bind ((reads_string hn).bind
    ((reads_string he).bind_pure _))

theorem ChannelRecord.reads {c : ChannelRecord} (ht : StringFits c.topic)
    (he : StringFits c.messageEncoding) (hm : StringMapFits c.metadata) :
    Reads ChannelRecord.read c.bytes c := by
  simp only [ChannelRecord.bytes, List.append_assoc]
  exact (reads_u16 c.id).bind ((reads_u16 c.schemaId).bind ((reads_string ht).bind
    ((reads_string he).bind ((reads_stringMap hm).bind_pure _))))

theorem MessageHeader.reads (h : MessageHeader) : Reads MessageHeader.read h.bytes h := by
  simp only [MessageHeader.bytes, List.append_assoc]
  exact (reads_u16 h.channelId).bind ((reads_u32 h.sequence).bind ((reads_u64 h.logTime).bind
    ((reads_u64 h.publishTime).bind_pure _)))

theorem ChunkHeader.reads {h : ChunkHeader} (hc : StringFits h.compression) :
    Reads ChunkHeader.read h.bytes h := by
  simp only [ChunkHeader.bytes, List.append_assoc]
  exact (reads_u64 h.messageStartTime).bind ((reads_u64 h.messageEndTime).bind
    ((reads_u64 h.uncompressedSize).bind ((reads_u32 h.uncompressedCrc).bind
      ((reads_string hc).bind ((reads_u64 h.compressedSize).bind_pure _)))))

theorem MessageIndexEntry.reads (e : MessageIndexEntry) : Reads MessageIndexEntry.read e.bytes e :=
  (reads_u64 e.logTime).bind ((reads_u64 e.offset).bind_pure _)

theorem MessageIndex.reads {i : MessageIndex}
    (h : (i.records.flatMap MessageIndexEntry.bytes).length < 2 ^ 32) :
    Reads MessageIndex.read i.bytes i := by
  have hvec := reads_vec (fun e (_ : e ∈ i.records) => MessageIndexEntry.reads e)
    (fun e _ he => by simpa [MessageIndexEntry.bytes] using congrArg List.length he) h
  exact (reads_u16 i.channelId).bind (hvec.bind_pure _)

theorem intMap_fits (m : BTreeMap UInt16 UInt64) :
    (m.toList.flatMap intEntry).length < 2 ^ 32 := by
  have hlen : (m.toList.flatMap intEntry).length = 10 * m.toList.length := by
    induction m.toList with
    | nil => rfl
    | cons e l ih =>
      rw [List.flatMap_cons, List.length_append, ih, List.length_cons]
      simp only [intEntry, List.length_append, length_u16, length_u64]
      omega
  have hkeys : m.toList.length ≤ 65536 := by
    have hinj : ((m.toList.map Prod.fst).map UInt16.toFin).Nodup :=
      (BTreeMap.nodup_keys_toList m).map fun a b h => UInt16.toFin_inj.mp h
    have hcard := hinj.length_le_card
    simpa [UInt16.size] using hcard
  omega

theorem ChunkIndex.reads {i : ChunkIndex} (hc : StringFits i.compression) :
    Reads ChunkIndex.read i.bytes i := by
  simp only [ChunkIndex.bytes, List.append_assoc]
  exact (reads_u64 i.messageStartTime).bind ((reads_u64 i.messageEndTime).bind
    ((reads_u64 i.chunkStartOffset).bind ((reads_u64 i.chunkLength).bind
      ((reads_intMap (intMap_fits i.messageIndexOffsets)).bind
        ((reads_u64 i.messageIndexLength).bind ((reads_string hc).bind
          ((reads_u64 i.compressedSize).bind ((reads_u64 i.uncompressedSize).bind_pure _))))))))

theorem AttachmentHeader.reads {h : AttachmentHeader} (hn : StringFits h.name)
    (hm : StringFits h.mediaType) : Reads AttachmentHeader.read h.bytes h := by
  simp only [AttachmentHeader.bytes, List.append_assoc]
  exact (reads_u64 h.logTime).bind ((reads_u64 h.createTime).bind ((reads_string hn).bind
    ((reads_string hm).bind_pure _)))

theorem AttachmentIndex.reads {i : AttachmentIndex} (hn : StringFits i.name)
    (hm : StringFits i.mediaType) : Reads AttachmentIndex.read i.bytes i := by
  simp only [AttachmentIndex.bytes, List.append_assoc]
  exact (reads_u64 i.offset).bind ((reads_u64 i.length).bind ((reads_u64 i.logTime).bind
    ((reads_u64 i.createTime).bind ((reads_u64 i.dataSize).bind ((reads_string hn).bind
      ((reads_string hm).bind_pure _))))))

theorem Statistics.reads (s : Statistics) : Reads Statistics.read s.bytes s := by
  simp only [Statistics.bytes, List.append_assoc]
  exact (reads_u64 s.messageCount).bind ((reads_u16 s.schemaCount).bind
    ((reads_u32 s.channelCount).bind ((reads_u32 s.attachmentCount).bind
      ((reads_u32 s.metadataCount).bind ((reads_u32 s.chunkCount).bind
        ((reads_u64 s.messageStartTime).bind ((reads_u64 s.messageEndTime).bind
          ((reads_intMap (intMap_fits s.channelMessageCounts)).bind_pure _))))))))

theorem Metadata.reads {m : Metadata} (hn : StringFits m.name) (hm : StringMapFits m.metadata) :
    Reads Metadata.read m.bytes m :=
  (reads_string hn).bind ((reads_stringMap hm).bind_pure _)

theorem MetadataIndex.reads {i : MetadataIndex} (hn : StringFits i.name) :
    Reads MetadataIndex.read i.bytes i := by
  simp only [MetadataIndex.bytes, List.append_assoc]
  exact (reads_u64 i.offset).bind ((reads_u64 i.length).bind
    ((reads_string hn).bind_pure _))

theorem SummaryOffset.reads (o : SummaryOffset) : Reads SummaryOffset.read o.bytes o := by
  simp only [SummaryOffset.bytes, List.append_assoc]
  exact (reads_u8 o.groupOpcode).bind ((reads_u64 o.groupStart).bind
    ((reads_u64 o.groupLength).bind_pure _))

theorem DataEnd.reads (d : DataEnd) : Reads DataEnd.read d.bytes d :=
  (reads_u32 d.dataSectionCrc).bind_pure _

/-! ## Records -/

/-- `records::Record`. -/
inductive Record
  | header (header : Header)
  | footer (footer : Footer)
  | schema (header : SchemaHeader) (data : Bytes)
  | channel (channel : ChannelRecord)
  | message (header : MessageHeader) (data : Bytes)
  | chunk (header : ChunkHeader) (data : Bytes)
  | messageIndex (index : MessageIndex)
  | chunkIndex (index : ChunkIndex)
  | attachment (header : AttachmentHeader) (data : Bytes) (crc : UInt32)
  | attachmentIndex (index : AttachmentIndex)
  | statistics (statistics : Statistics)
  | metadata (metadata : Metadata)
  | metadataIndex (index : MetadataIndex)
  | summaryOffset (offset : SummaryOffset)
  | dataEnd (dataEnd : DataEnd)
  | unknown (opcode : UInt8) (data : Bytes)
deriving DecidableEq

namespace Record

/-- `Record::opcode`. -/
def opcode : Record → UInt8
  | header _ => op.HEADER
  | footer _ => op.FOOTER
  | schema .. => op.SCHEMA
  | channel _ => op.CHANNEL
  | message .. => op.MESSAGE
  | chunk .. => op.CHUNK
  | messageIndex _ => op.MESSAGE_INDEX
  | chunkIndex _ => op.CHUNK_INDEX
  | attachment .. => op.ATTACHMENT
  | attachmentIndex _ => op.ATTACHMENT_INDEX
  | statistics _ => op.STATISTICS
  | metadata _ => op.METADATA
  | metadataIndex _ => op.METADATA_INDEX
  | summaryOffset _ => op.SUMMARY_OFFSET
  | dataEnd _ => op.DATA_END
  | unknown opcode _ => opcode

/-- The body of a record, as it is written. -/
def body : Record → Bytes
  | header h => h.bytes
  | footer f => f.bytes
  | schema h data => h.bytes ++ (le 4 data.length ++ data)
  | channel c => c.bytes
  | message h data => h.bytes ++ data
  | chunk h data => h.bytes ++ data
  | messageIndex i => i.bytes
  | chunkIndex i => i.bytes
  | attachment h data crc => h.bytes ++ (le 8 data.length ++ (data ++ u32 crc))
  | attachmentIndex i => i.bytes
  | statistics s => s.bytes
  | metadata m => m.bytes
  | metadataIndex i => i.bytes
  | summaryOffset o => o.bytes
  | dataEnd d => d.bytes
  | unknown _ data => data

/-- The opcode and the body. -/
def raw (r : Record) : UInt8 × Bytes := (r.opcode, r.body)

/-- The record with its opcode and its length. -/
def frame (r : Record) : Bytes := Mcap.frame r.opcode r.body

end Record

/-! ## `parse_record` -/

/-- A reader of a whole record body, as `read_le` is used on it. -/
def parseBody {α : Type} (p : Read BinError α) (k : α → Record) (body : Bytes) :
    Res McapError Record :=
  match readLeFrom p body with
  | .ok (a, _) => .ok (k a)
  | .error e => .err e

/-- The error of a plain read at the end of its input. -/
def IoError.unexpectedEof : IoError := ⟨0⟩

/-- `read_u32` and `read_u64`: an integer of `w` bytes at the front. -/
def readInt (w : Nat) (bytes : Bytes) : Except McapError (Nat × Bytes) :=
  if bytes.length < w then .error (.io .unexpectedEof) else .ok (ofLe (bytes.take w), bytes.drop w)

/-- The schema branch of `parse_record`. -/
def parseSchema (body : Bytes) : Res McapError Record :=
  match readLeFrom SchemaHeader.read body with
  | .error e => .err e
  | .ok (header, c) =>
      match readInt 4 c.rest with
      | .error e => .err e
      | .ok (dataLen, data) =>
          if dataLen > data.length % 2 ^ 32 then
            .err (.badSchemaLength dataLen (data.length % 2 ^ 32))
          else .ok (.schema header (data.take dataLen))

/-- The message branch of `parse_record`. -/
def parseMessage (body : Bytes) : Res McapError Record :=
  match readLeFrom MessageHeader.read body with
  | .error e => .err e
  | .ok (header, c) => .ok (.message header c.rest)

/-- The chunk branch of `parse_record`. -/
def parseChunk (body : Bytes) : Res McapError Record :=
  match readLeFrom ChunkHeader.read body with
  | .error e => .err e
  | .ok (header, c) =>
      if header.compressedSize.toNat > c.rest.length then
        .err (.badChunkLength header.compressedSize.toNat c.rest.length)
      else .ok (.chunk header (c.rest.take header.compressedSize.toNat))

/-- The attachment branch of `parse_record`: the last four bytes of the body are cut
off before the length is checked, and the CRC is read after the data. -/
def parseAttachment (body : Bytes) : Res McapError Record :=
  match readLeFrom AttachmentHeader.read body with
  | .error e => .err e
  | .ok (header, c) =>
      match readInt 8 c.rest with
      | .error e => .err e
      | .ok (dataLen, rest) =>
          let headerLen := body.length - rest.length
          if body.length < 4 ∨ body.length - 4 < headerLen then .panic
          else
            let data := (body.take (body.length - 4)).drop headerLen
            if dataLen > data.length then .err (.badAttachmentLength dataLen data.length)
            else
              let data := data.take dataLen
              match readLeFrom readU32 (body.drop (headerLen + data.length)) with
              | .error e => .err e
              | .ok (crc, _) =>
                  let calculated := crc32 (body.take (headerLen + data.length))
                  if crc ≠ 0 ∧ crc ≠ calculated then .err (.badAttachmentCrc crc calculated)
                  else .ok (.attachment header data crc)

/-- `parse_record`. -/
def parseRecord (opcode : UInt8) (body : Bytes) : Res McapError Record :=
  if opcode = op.HEADER then parseBody Header.read .header body
  else if opcode = op.FOOTER then parseBody Footer.read .footer body
  else if opcode = op.SCHEMA then parseSchema body
  else if opcode = op.CHANNEL then parseBody ChannelRecord.read .channel body
  else if opcode = op.MESSAGE then parseMessage body
  else if opcode = op.CHUNK then parseChunk body
  else if opcode = op.MESSAGE_INDEX then parseBody MessageIndex.read .messageIndex body
  else if opcode = op.CHUNK_INDEX then parseBody ChunkIndex.read .chunkIndex body
  else if opcode = op.ATTACHMENT then parseAttachment body
  else if opcode = op.ATTACHMENT_INDEX then parseBody AttachmentIndex.read .attachmentIndex body
  else if opcode = op.STATISTICS then parseBody Statistics.read .statistics body
  else if opcode = op.METADATA then parseBody Metadata.read .metadata body
  else if opcode = op.METADATA_INDEX then parseBody MetadataIndex.read .metadataIndex body
  else if opcode = op.SUMMARY_OFFSET then parseBody SummaryOffset.read .summaryOffset body
  else if opcode = op.DATA_END then parseBody DataEnd.read .dataEnd body
  else .ok (.unknown opcode body)

/-! ## The round trip -/

/-- Every string, map, schema body and array of the record fits its 32-bit length,
and an unknown record has an opcode of its own. -/
def Record.Fits : Record → Prop
  | .header h => StringFits h.profile ∧ StringFits h.library
  | .schema h data => StringFits h.name ∧ StringFits h.encoding ∧ data.length < 2 ^ 32
  | .channel c => StringFits c.topic ∧ StringFits c.messageEncoding ∧ StringMapFits c.metadata
  | .chunk h data => StringFits h.compression ∧ h.compressedSize.toNat = data.length
  | .messageIndex i => (i.records.flatMap MessageIndexEntry.bytes).length < 2 ^ 32
  | .chunkIndex i => StringFits i.compression
  | .attachment h data crc => StringFits h.name ∧ StringFits h.mediaType ∧ data.length < 2 ^ 64 ∧
      (crc = 0 ∨ crc = crc32 (h.bytes ++ (le 8 data.length ++ data)))
  | .attachmentIndex i => StringFits i.name ∧ StringFits i.mediaType
  | .metadata m => StringFits m.name ∧ StringMapFits m.metadata
  | .metadataIndex i => StringFits i.name
  | .unknown opcode _ => 0x80 ≤ opcode
  | _ => True

theorem Reads.readLeFrom {α : Type} {p : Read BinError α} {enc : Bytes} {a : α}
    (h : Reads p enc a) (rest : Bytes) :
    readLeFrom p (enc ++ rest) = .ok (a, ⟨rest, enc.length⟩) := by
  rw [Mcap.readLeFrom, Cursor.new, h rest 0, Nat.zero_add]

theorem Reads.parseBody {α : Type} {p : Read BinError α} {enc : Bytes} {a : α}
    (h : Reads p enc a) (k : α → Record) : parseBody p k enc = .ok (k a) := by
  have hr := h.readLeFrom []
  rw [List.append_nil] at hr
  rw [Mcap.parseBody, hr]

theorem readInt_le {w n : Nat} (rest : Bytes) (h : n < 256 ^ w) :
    readInt w (le w n ++ rest) = .ok (n, rest) := by
  rw [readInt, if_neg (by rw [List.length_append, length_le]; omega),
    List.take_append_of_le_length (by simp), List.take_of_length_le (by simp),
    List.drop_append_of_le_length (by simp), List.drop_eq_nil_of_le (by simp), List.nil_append,
    ofLe_le_of_lt h]

theorem parseSchema_body {h : SchemaHeader} {data : Bytes} (hn : StringFits h.name)
    (he : StringFits h.encoding) (hd : data.length < 2 ^ 32) :
    parseSchema (h.bytes ++ (le 4 data.length ++ data)) = .ok (.schema h data) := by
  have hmod : data.length % 2 ^ 32 = data.length := Nat.mod_eq_of_lt hd
  rw [parseSchema, (SchemaHeader.reads hn he).readLeFrom]
  simp only [readInt_le data (show _ < 256 ^ 4 from hd), hmod]
  rw [if_neg (by omega), List.take_length]

theorem parseChunk_body {h : ChunkHeader} {data : Bytes} (hc : StringFits h.compression)
    (hs : h.compressedSize.toNat = data.length) :
    parseChunk (h.bytes ++ data) = .ok (.chunk h data) := by
  rw [parseChunk, (ChunkHeader.reads hc).readLeFrom]
  simp only [hs]
  rw [if_neg (by omega), List.take_length]

theorem parseAttachment_body {h : AttachmentHeader} {data : Bytes} {crc : UInt32}
    (hn : StringFits h.name) (hm : StringFits h.mediaType) (hd : data.length < 2 ^ 64)
    (hcrc : crc = 0 ∨ crc = crc32 (h.bytes ++ (le 8 data.length ++ data))) :
    parseAttachment (h.bytes ++ (le 8 data.length ++ (data ++ u32 crc))) =
      .ok (.attachment h data crc) := by
  rw [parseAttachment, (AttachmentHeader.reads hn hm).readLeFrom]
  simp only [readInt_le (data ++ u32 crc) (show _ < 256 ^ 8 from hd)]
  generalize hbody : h.bytes ++ (le 8 data.length ++ (data ++ u32 crc)) = body
  -- the body once more, cut where the source cuts it
  have hcut : body = ((h.bytes ++ le 8 data.length) ++ data) ++ u32 crc := by
    rw [← hbody]
    simp only [List.append_assoc]
  have hlen : body.length = (h.bytes ++ le 8 data.length).length + data.length + 4 := by
    rw [hcut, List.length_append, List.length_append, length_u32]
  have hheader : body.length - (data ++ u32 crc).length = (h.bytes ++ le 8 data.length).length := by
    rw [List.length_append, length_u32]
    omega
  have hdata : (body.take (body.length - 4)).drop (h.bytes ++ le 8 data.length).length = data := by
    rw [show body.length - 4 = ((h.bytes ++ le 8 data.length) ++ data).length by
      rw [List.length_append]; omega, hcut, List.take_left, List.drop_left]
  rw [hheader, if_neg (by omega)]
  simp only [hdata]
  rw [if_neg (by omega), List.take_length, ← List.length_append]
  have hu : readLeFrom readU32 (u32 crc) = .ok (crc, ⟨[], 4⟩) := by
    have hr := (reads_u32 crc).readLeFrom []
    rwa [List.append_nil, length_u32] at hr
  rw [hcut, List.drop_left, List.take_left, hu]
  simp only [List.append_assoc]
  rw [if_neg]
  rintro ⟨hz, hne⟩
  exact hcrc.elim hz hne

/-- **Round trip of a record**: what is written is read back. -/
theorem parse_body {r : Record} (h : r.Fits) : parseRecord r.opcode r.body = .ok r := by
  cases r with
  | header x =>
    simp +decide only [Record.opcode, Record.body, parseRecord, if_true]
    exact (Header.reads h.1 h.2).parseBody .header
  | footer x =>
    simp +decide only [Record.opcode, Record.body, parseRecord, if_true, if_false]
    exact (Footer.reads x).parseBody .footer
  | schema x data =>
    simp +decide only [Record.opcode, Record.body, parseRecord, if_true, if_false]
    exact parseSchema_body h.1 h.2.1 h.2.2
  | channel x =>
    simp +decide only [Record.opcode, Record.body, parseRecord, if_true, if_false]
    exact (ChannelRecord.reads h.1 h.2.1 h.2.2).parseBody .channel
  | message x data =>
    simp +decide only [Record.opcode, Record.body, parseRecord, if_true, if_false]
    rw [parseMessage, (MessageHeader.reads x).readLeFrom]
  | chunk x data =>
    simp +decide only [Record.opcode, Record.body, parseRecord, if_true, if_false]
    exact parseChunk_body h.1 h.2
  | messageIndex x =>
    simp +decide only [Record.opcode, Record.body, parseRecord, if_true, if_false]
    exact (MessageIndex.reads h).parseBody .messageIndex
  | chunkIndex x =>
    simp +decide only [Record.opcode, Record.body, parseRecord, if_true, if_false]
    exact (ChunkIndex.reads h).parseBody .chunkIndex
  | attachment x data crc =>
    simp +decide only [Record.opcode, Record.body, parseRecord, if_true, if_false]
    exact parseAttachment_body h.1 h.2.1 h.2.2.1 h.2.2.2
  | attachmentIndex x =>
    simp +decide only [Record.opcode, Record.body, parseRecord, if_true, if_false]
    exact (AttachmentIndex.reads h.1 h.2).parseBody .attachmentIndex
  | statistics x =>
    simp +decide only [Record.opcode, Record.body, parseRecord, if_true, if_false]
    exact (Statistics.reads x).parseBody .statistics
  | metadata x =>
    simp +decide only [Record.opcode, Record.body, parseRecord, if_true, if_false]
    exact (Metadata.reads h.1 h.2).parseBody .metadata
  | metadataIndex x =>
    simp +decide only [Record.opcode, Record.body, parseRecord, if_true, if_false]
    exact (MetadataIndex.reads h).parseBody .metadataIndex
  | summaryOffset x =>
    simp +decide only [Record.opcode, Record.body, parseRecord, if_true, if_false]
    exact (SummaryOffset.reads x).parseBody .summaryOffset
  | dataEnd x =>
    simp +decide only [Record.opcode, Record.body, parseRecord, if_true, if_false]
    exact (DataEnd.reads x).parseBody .dataEnd
  | unknown opcode data =>
    have hop : ∀ o : UInt8, o < 0x80 → opcode ≠ o := by
      rintro o ho rfl
      exact absurd h (UInt8.not_le.mpr ho)
    show parseRecord opcode data = _
    simp only [parseRecord, hop op.HEADER (by decide), hop op.FOOTER (by decide),
      hop op.SCHEMA (by decide), hop op.CHANNEL (by decide), hop op.MESSAGE (by decide),
      hop op.CHUNK (by decide), hop op.MESSAGE_INDEX (by decide), hop op.CHUNK_INDEX (by decide),
      hop op.ATTACHMENT (by decide), hop op.ATTACHMENT_INDEX (by decide),
      hop op.STATISTICS (by decide), hop op.METADATA (by decide),
      hop op.METADATA_INDEX (by decide), hop op.SUMMARY_OFFSET (by decide),
      hop op.DATA_END (by decide), if_false]

end Mcap

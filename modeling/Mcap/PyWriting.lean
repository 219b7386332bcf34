import Mcap.PyPieces

/-! # Writing records of the Python library

`RecordBuilder` of `data_stream.py` and the methods `write` of `records.py`.  A builder is a
`BytesIO`: it refuses to grow beyond `sys.maxsize`, and `struct.pack` refuses a number that does not
fit its field.  The position of a builder is the end of its bytes, but within `finish_record`, which
goes back to the length of a record.

What a method that returns has added to the builder is a record that reads back as the one that was
written (`write_eq_ok`).  `Transfers` puts writers and readers together field by field: where the
writer returns, the reader takes what was added and gives the value.
-/
namespace Mcap
namespace Py

/-! ## The builder -/

structure RecordBuilder where
  buffer : Bytes
  recordStartOffset : Nat
deriving DecidableEq

/-- What is done to a builder. -/
abbrev Building := StateT RecordBuilder (Except PyError) Unit

/-- `struct.pack` of one number. -/
def pack (w value : Nat) : Except PyError Bytes :=
  if value < 256 ^ w then pure (le w value) else throw .structError

namespace RecordBuilder

def new : RecordBuilder := ⟨[], 0⟩

def count (b : RecordBuilder) : Nat := b.buffer.length

/-- `RecordBuilder.end`: the bytes, and a buffer without any. -/
def finish (b : RecordBuilder) : Bytes × RecordBuilder := (b.buffer, { b with buffer := [] })

def write (data : Bytes) : Building := fun b =>
  if sysMaxsize < b.buffer.length + data.length then throw .overflowError
  else pure ((), { b with buffer := b.buffer ++ data })

def startRecord (opcode : UInt8) : Building := do
  modify fun b => { b with recordStartOffset := b.buffer.length }
  write (opcode :: le 8 0)

/-- The length of the record is written over its placeholder. -/
def finishRecord : Building := fun b => do
  let length := b.buffer.length - b.recordStartOffset - 9
  let bytes ← pack 8 length
  pure ((), { b with
    buffer := b.buffer.take (b.recordStartOffset + 1) ++ bytes ++
      b.buffer.drop (b.recordStartOffset + 9) })

def writeInt (w value : Nat) : Building := do
  let bytes ← pack w value
  write bytes

def write1 (value : Nat) : Building := writeInt 1 value
def write2 (value : Nat) : Building := writeInt 2 value
def write4 (value : Nat) : Building := writeInt 4 value
def write8 (value : Nat) : Building := writeInt 8 value

def writePrefixedString (value : String) : Building := do
  write4 (utf8 value).length
  write (utf8 value)

/-- A record: its fields, between `start_record` and `finish_record`. -/
def record (opcode : UInt8) (fields : Building) : Building := do
  startRecord opcode
  fields
  finishRecord

/-- A map of strings, behind its length. -/
def writeStringMap (metadata : Dict String String) : Building := do
  write4 (metadata.items.map fun e => 8 + (utf8 e.1).length + (utf8 e.2).length).sum
  metadata.items.forM fun e => do
    writePrefixedString e.1
    writePrefixedString e.2

/-- A map of channel ids, behind its length. -/
def writeIdMap (entries : Dict Nat Nat) : Building := do
  write4 (entries.items.length * 10)
  entries.items.forM fun e => do
    write2 e.1
    write8 e.2

end RecordBuilder

open RecordBuilder

/-! ## The records -/

/-- The fields of an attachment, without the checksum. -/
def Attachment.writeFields (a : Attachment) : Building := do
  write8 a.logTime
  write8 a.createTime
  writePrefixedString a.name
  writePrefixedString a.mediaType
  write8 a.data.length
  RecordBuilder.write a.data
  write4 0

/-- A checksum, behind what was written to a builder. -/
def Attachment.copy (data : Bytes) : Building := do
  RecordBuilder.write (data.take (data.length - 4))
  write4 (crc32 ((data.take (data.length - 4)).drop 9)).toNat

/-- An attachment is written to a builder of its own, and copied with the checksum of its fields. -/
def Attachment.write (a : Attachment) : Building := fun b => do
  let (_, builder) ← record op.ATTACHMENT a.writeFields .new
  Attachment.copy builder.buffer b

def AttachmentIndex.write (i : AttachmentIndex) : Building :=
  record op.ATTACHMENT_INDEX do
    write8 i.offset
    write8 i.length
    write8 i.logTime
    write8 i.createTime
    write8 i.dataSize
    writePrefixedString i.name
    writePrefixedString i.mediaType

def Channel.write (c : Channel) : Building :=
  record op.CHANNEL do
    write2 c.id
    write2 c.schemaId
    writePrefixedString c.topic
    writePrefixedString c.messageEncoding
    RecordBuilder.writeStringMap c.metadata

def Chunk.write (c : Chunk) : Building :=
  record op.CHUNK do
    write8 c.messageStartTime
    write8 c.messageEndTime
    write8 c.uncompressedSize
    write4 c.uncompressedCrc
    writePrefixedString c.compression
    write8 c.data.length
    RecordBuilder.write c.data

def ChunkIndex.write (i : ChunkIndex) : Building :=
  record op.CHUNK_INDEX do
    write8 i.messageStartTime
    write8 i.messageEndTime
    write8 i.chunkStartOffset
    write8 i.chunkLength
    RecordBuilder.writeIdMap i.messageIndexOffsets
    write8 i.messageIndexLength
    writePrefixedString i.compression
    write8 i.compressedSize
    write8 i.uncompressedSize

def DataEnd.write (d : DataEnd) : Building :=
  record op.DATA_END (write4 d.dataSectionCrc)

def Footer.write (f : Footer) : Building :=
  record op.FOOTER do
    write8 f.summaryStart
    write8 f.summaryOffsetStart
    write4 f.summaryCrc

def Header.write (h : Header) : Building :=
  record op.HEADER do
    writePrefixedString h.profile
    writePrefixedString h.library

def Message.write (m : Message) : Building :=
  record op.MESSAGE do
    write2 m.channelId
    write4 m.sequence
    write8 m.logTime
    write8 m.publishTime
    RecordBuilder.write m.data

def MessageIndex.write (i : MessageIndex) : Building :=
  record op.MESSAGE_INDEX do
    write2 i.channelId
    write4 (i.records.length * 16)
    i.records.forM fun e => do
      write8 e.1
      write8 e.2

def Metadata.write (m : Metadata) : Building :=
  record op.METADATA do
    writePrefixedString m.name
    RecordBuilder.writeStringMap m.metadata

def MetadataIndex.write (i : MetadataIndex) : Building :=
  record op.METADATA_INDEX do
    write8 i.offset
    write8 i.length
    writePrefixedString i.name

def Schema.write (s : Schema) : Building :=
  record op.SCHEMA do
    write2 s.id
    writePrefixedString s.name
    writePrefixedString s.encoding
    write4 s.data.length
    RecordBuilder.write s.data

def Statistics.write (s : Statistics) : Building :=
  record op.STATISTICS do
    write8 s.messageCount
    write2 s.schemaCount
    write4 s.channelCount
    write4 s.attachmentCount
    write4 s.metadataCount
    write4 s.chunkCount
    write8 s.messageStartTime
    write8 s.messageEndTime
    RecordBuilder.writeIdMap s.channelMessageCounts

def SummaryOffset.write (o : SummaryOffset) : Building :=
  record op.SUMMARY_OFFSET do
    write1 o.groupOpcode
    write8 o.groupStart
    write8 o.groupLength

def McapRecord.opcode : McapRecord → UInt8
  | .attachment _ => op.ATTACHMENT
  | .attachmentIndex _ => op.ATTACHMENT_INDEX
  | .channel _ => op.CHANNEL
  | .chunk _ => op.CHUNK
  | .chunkIndex _ => op.CHUNK_INDEX
  | .dataEnd _ => op.DATA_END
  | .footer _ => op.FOOTER
  | .header _ => op.HEADER
  | .message _ => op.MESSAGE
  | .messageIndex _ => op.MESSAGE_INDEX
  | .metadata _ => op.METADATA
  | .metadataIndex _ => op.METADATA_INDEX
  | .schema _ => op.SCHEMA
  | .statistics _ => op.STATISTICS
  | .summaryOffset _ => op.SUMMARY_OFFSET

/-- The method `write` of a record. -/
def McapRecord.write : McapRecord → Building
  | .attachment record => record.write
  | .attachmentIndex record => record.write
  | .channel record => record.write
  | .chunk record => record.write
  | .chunkIndex record => record.write
  | .dataEnd record => record.write
  | .footer record => record.write
  | .header record => record.write
  | .message record => record.write
  | .messageIndex record => record.write
  | .metadata record => record.write
  | .metadataIndex record => record.write
  | .schema record => record.write
  | .statistics record => record.write
  | .summaryOffset record => record.write

/-! ## What is written -/

/-- The builder has grown by these bytes, and not beyond its bounds. -/
structure Grown (b b' : RecordBuilder) (bytes : Bytes) : Prop where
  buffer : b'.buffer = b.buffer ++ bytes
  start : b'.recordStartOffset = b.recordStartOffset
  bounded : b.buffer.length ≤ sysMaxsize → b'.buffer.length ≤ sysMaxsize

theorem Grown.refl (b : RecordBuilder) : Grown b b [] := ⟨(List.append_nil _).symm, rfl, id⟩

theorem Grown.trans {b b' b'' : RecordBuilder} {bytes more : Bytes} (h : Grown b b' bytes)
    (h' : Grown b' b'' more) : Grown b b'' (bytes ++ more) where
  buffer := by rw [h'.buffer, h.buffer, List.append_assoc]
  start := h'.start.trans h.start
  bounded := fun hb => h'.bounded (h.bounded hb)

/-- A writer that returns has added these bytes, of which something is known. -/
def Puts (w : Building) (bytes : Bytes) (P : Prop) : Prop :=
  ∀ b b', w b = .ok ((), b') → P ∧ Grown b b' bytes

variable {b b' : RecordBuilder} {opcode : UInt8}

theorem bind_eq_ok {w v : Building} {b'' : RecordBuilder}
    (h : (w >>= fun _ => v) b = .ok ((), b'')) :
    ∃ b', w b = .ok ((), b') ∧ v b' = .ok ((), b'') := by
  obtain ⟨⟨⟩, b', hw, h⟩ := run_bind_eq_ok h
  exact ⟨b', hw, h⟩

section
variable {w v : Building} {bytes more : Bytes} {P Q : Prop}

theorem Puts.bind (hw : Puts w bytes P) (hv : Puts v more Q) :
    Puts (w >>= fun _ => v) (bytes ++ more) (P ∧ Q) := by
  intro b b'' h
  obtain ⟨b', hb, hb'⟩ := bind_eq_ok h
  obtain ⟨hP, hgrown⟩ := hw b b' hb
  obtain ⟨hQ, hgrown'⟩ := hv b' b'' hb'
  exact ⟨⟨hP, hQ⟩, hgrown.trans hgrown'⟩

theorem puts_write (data : Bytes) : Puts (RecordBuilder.write data) data (data.length ≤ sysMaxsize) := by
  intro b b' h
  unfold RecordBuilder.write at h
  split at h
  · cases h
  · cases h
    refine ⟨by omega, rfl, rfl, fun _ => ?_⟩
    rw [List.length_append]
    omega

theorem length_of_write {data : Bytes} {b b' : RecordBuilder}
    (h : RecordBuilder.write data b = .ok ((), b')) : b'.buffer.length ≤ sysMaxsize := by
  unfold RecordBuilder.write at h
  split at h
  · cases h
  · cases h
    rw [List.length_append]
    omega

theorem writeInt_eq_ok {w value : Nat} {b b' : RecordBuilder}
    (h : writeInt w value b = .ok ((), b')) :
    value < 256 ^ w ∧ RecordBuilder.write (le w value) b = .ok ((), b') := by
  unfold writeInt pack at h
  by_cases hvalue : value < 256 ^ w
  · rw [if_pos hvalue] at h
    exact ⟨hvalue, h⟩
  · rw [if_neg hvalue] at h
    cases h

theorem puts_writeInt (w value : Nat) : Puts (writeInt w value) (le w value) (value < 256 ^ w) := by
  intro b b' h
  obtain ⟨hvalue, hwrite⟩ := writeInt_eq_ok h
  exact ⟨hvalue, (puts_write _ b b' hwrite).2⟩

theorem puts_writePrefixedString (value : String) :
    Puts (writePrefixedString value) (writeString value) (StringFits value) := by
  intro b b' h
  obtain ⟨hP, hgrown⟩ := ((puts_writeInt 4 _).bind (puts_write (utf8 value))) b b' h
  exact ⟨hP.1, hgrown⟩

theorem puts_forM {α : Type} {item : α → Building} {enc : α → Bytes} {P : α → Prop}
    (hitem : ∀ x, Puts (item x) (enc x) (P x)) (l : List α) :
    Puts (l.forM item) (l.flatMap enc) (∀ x ∈ l, P x) := by
  induction l with
  | nil =>
    intro b b' h
    cases h
    exact ⟨fun x hx => absurd hx List.not_mem_nil, .refl b⟩
  | cons x l ih =>
    intro b b' h
    change (item x >>= fun _ => l.forM item) b = _ at h
    obtain ⟨⟨hx, hl⟩, hgrown⟩ := (hitem x).bind ih b b' h
    exact ⟨List.forall_mem_cons.mpr ⟨hx, hl⟩, hgrown⟩

end

/-! ## What is written and read -/

/-- **Where the writer returns, the reader takes what was added and gives the value.** -/
def Transfers {α : Type} (w : Building) (r : Read PyError α) (a : α) : Prop :=
  ∀ b b', w b = .ok ((), b') → ∃ bytes, Grown b b' bytes ∧ Reads r bytes a

section
variable {α β : Type} {w v : Building} {r : Read PyError α} {a : α}

theorem Puts.transfers {bytes : Bytes} {P : Prop} (h : Puts w bytes P) (hr : P → Reads r bytes a) :
    Transfers w r a := fun b b' hw =>
  have ⟨hP, hgrown⟩ := h b b' hw
  ⟨bytes, hgrown, hr hP⟩

theorem Transfers.bind {f : α → Read PyError β} {b : β} (hw : Transfers w r a)
    (hv : Transfers v (f a) b) : Transfers (w >>= fun _ => v) (r >>= f) b := by
  intro s s'' h
  obtain ⟨s', hs, hs'⟩ := bind_eq_ok h
  obtain ⟨bytes, hgrown, hreads⟩ := hw s s' hs
  obtain ⟨more, hgrown', hreads'⟩ := hv s' s'' hs'
  exact ⟨bytes ++ more, hgrown.trans hgrown', hreads.bind hreads'⟩

theorem Transfers.last (hw : Transfers w r a) (f : α → β) :
    Transfers w (r >>= fun x => pure (f x)) (f a) := by
  intro s s' h
  obtain ⟨bytes, hgrown, hreads⟩ := hw s s' h
  exact ⟨bytes, hgrown, hreads.bind_pure f⟩

end

theorem reads_exactly (data : Bytes) (h : data.length ≤ sysMaxsize) :
    Reads (exactly data.length) data data := by
  intro rest pos
  have hread := exactly_of_le (c := ⟨data ++ rest, pos⟩) (Int.natCast_nonneg data.length) h (by simp)
  simpa using hread

theorem reads_int {w value : Nat} (hw : w ≤ sysMaxsize) (h : value < 256 ^ w) :
    Reads (exactly w >>= unpack w) (le w value) value := by
  have hread : Reads (exactly w) (le w value) (le w value) := by
    have h' := reads_exactly (le w value) (by rwa [length_le])
    rwa [length_le] at h'
  have hunpack : unpack w (le w value) = pure value := by
    unfold unpack
    rw [if_pos (length_le w value), ofLe_le_of_lt h]
  have hbind := hread.bind (f := unpack w) (hunpack ▸ Reads.pure value)
  rwa [List.append_nil] at hbind

theorem transfers_1 (value : Nat) : Transfers (write1 value) (read1 exactly) value :=
  (puts_writeInt 1 value).transfers (reads_int (by decide))

theorem transfers_2 (value : Nat) : Transfers (write2 value) (read2 exactly) value :=
  (puts_writeInt 2 value).transfers (reads_int (by decide))

theorem transfers_4 (value : Nat) : Transfers (write4 value) (read4 exactly) value :=
  (puts_writeInt 4 value).transfers (reads_int (by decide))

theorem transfers_8 (value : Nat) : Transfers (write8 value) (read8 exactly) value :=
  (puts_writeInt 8 value).transfers (reads_int (by decide))

theorem transfers_data (data : Bytes) :
    Transfers (RecordBuilder.write data) (exactly data.length) data :=
  (puts_write data).transfers (reads_exactly data)

theorem reads_string' {value : String} (h : StringFits value) :
    Reads (readPrefixedString exactly) (writeString value) value := by
  have hmax : (utf8 value).length ≤ sysMaxsize := Nat.le_of_lt (Nat.lt_trans h (by decide))
  have hdecode : decode (utf8 value) = pure value := by
    unfold decode
    rw [fromUTF8?_utf8]
  have hdata := (reads_exactly (utf8 value) hmax).bind (f := decode) (hdecode ▸ Reads.pure value)
  rw [List.append_nil] at hdata
  exact (reads_int (by decide) (show (utf8 value).length < 256 ^ 4 from h)).bind hdata

theorem transfers_string (value : String) :
    Transfers (writePrefixedString value) (readPrefixedString exactly) value :=
  (puts_writePrefixedString value).transfers reads_string'

/-- **A loop over entries**, behind the number of their bytes. -/
theorem transfers_while {α β : Type} {item : α → Building} {enc : α → Bytes} {P : α → Prop}
    (hitem : ∀ x, Puts (item x) (enc x) (P x)) (hne : ∀ x, enc x ≠ [])
    {step : β → Read PyError β} {next : β → α → β}
    (hstep : ∀ x b, P x → Reads (step b) (enc x) (next b x)) (l : List α) (b : β) {n : Nat}
    (hn : n = (l.flatMap enc).length) :
    Transfers (write4 n >>= fun _ => l.forM item) (readWhile exactly step b) (l.foldl next b) := by
  subst hn
  refine ((puts_writeInt 4 _).bind (puts_forM hitem l)).transfers fun ⟨hlen, hl⟩ => ?_
  refine (reads_int (by decide) hlen).bind ?_
  intro rest pos
  have hcount : l.length ≤ (l.flatMap enc).length := length_le_flatMap fun x _ => hne x
  show readFold (pos + (l.flatMap enc).length) step ((l.flatMap enc ++ rest).length + 1) b
    ⟨l.flatMap enc ++ rest, pos⟩ = _
  refine Reads.fold l b _ ?_ (fun pre x post heq => ?_) (fun x _ => hne x) rest pos rfl
  · rw [List.length_append]
    omega
  · exact hstep x _ (hl x (heq ▸ List.mem_append_right _ List.mem_cons_self))

theorem foldl_set {K V : Type} [DecidableEq K] (d : Dict K V) :
    d.items.foldl (fun d e => d.set e.1 e.2) (∅ : Dict K V) = d := Dict.ofList_items d

theorem sum_map_length {α : Type} (enc : α → Bytes) (l : List α) :
    (l.map fun e => (enc e).length).sum = (l.flatMap enc).length := by
  rw [List.length_flatMap]

theorem transfers_stringMap (metadata : Dict String String) :
    Transfers (RecordBuilder.writeStringMap metadata) (readStringMap exactly) metadata := by
  have hitem : ∀ e : String × String,
      Puts (writePrefixedString e.1 >>= fun _ => writePrefixedString e.2) (stringEntry e)
        (StringFits e.1 ∧ StringFits e.2) :=
    fun e => (puts_writePrefixedString e.1).bind (puts_writePrefixedString e.2)
  have hne : ∀ e : String × String, stringEntry e ≠ [] := fun e h => by
    simpa [stringEntry] using congrArg List.length h
  have hlen : (metadata.items.map fun e => 8 + (utf8 e.1).length + (utf8 e.2).length).sum =
      (metadata.items.flatMap stringEntry).length := by
    rw [← sum_map_length]
    refine congrArg List.sum (List.map_congr_left fun e _ => ?_)
    unfold stringEntry
    rw [List.length_append, length_writeString, length_writeString]
    omega
  have hstep : ∀ (e : String × String) (d : Dict String String), StringFits e.1 ∧ StringFits e.2 →
      Reads (do
        let key ← readPrefixedString exactly
        let value ← readPrefixedString exactly
        pure (d.set key value)) (stringEntry e) (d.set e.1 e.2) :=
    fun e d hP => (reads_string' hP.1).bind ((reads_string' hP.2).bind_pure (d.set e.1))
  have h := transfers_while hitem hne hstep metadata.items ∅ hlen
  rwa [foldl_set] at h

theorem transfers_idMap (entries : Dict Nat Nat) :
    Transfers (RecordBuilder.writeIdMap entries) (readIdMap exactly) entries := by
  have hitem : ∀ e : Nat × Nat, Puts (write2 e.1 >>= fun _ => write8 e.2) (le 2 e.1 ++ le 8 e.2)
      (e.1 < 256 ^ 2 ∧ e.2 < 256 ^ 8) :=
    fun e => (puts_writeInt 2 e.1).bind (puts_writeInt 8 e.2)
  have hlen : entries.items.length * 10 =
      (entries.items.flatMap fun e => le 2 e.1 ++ le 8 e.2).length := by
    rw [List.length_flatMap]
    simp [length_le]
  have hstep : ∀ (e : Nat × Nat) (d : Dict Nat Nat), e.1 < 256 ^ 2 ∧ e.2 < 256 ^ 8 →
      Reads (do
        let channelId ← read2 exactly
        let value ← read8 exactly
        pure (d.set channelId value)) (le 2 e.1 ++ le 8 e.2) (d.set e.1 e.2) :=
    fun e d hP =>
      (reads_int (by decide) hP.1).bind ((reads_int (by decide) hP.2).bind_pure (d.set e.1))
  have h := transfers_while hitem (fun e h => by simpa using congrArg List.length h) hstep
    entries.items ∅ hlen
  rwa [foldl_set] at h

theorem transfers_entries (records : List (Nat × Nat)) :
    Transfers (write4 (records.length * 16) >>= fun _ => records.forM fun e => do
        write8 e.1
        write8 e.2)
      (readWhile exactly (fun entries => do
        let timestamp ← read8 exactly
        let offset ← read8 exactly
        pure (entries ++ [(timestamp, offset)])) []) records := by
  have hitem : ∀ e : Nat × Nat, Puts (write8 e.1 >>= fun _ => write8 e.2) (le 8 e.1 ++ le 8 e.2)
      (e.1 < 256 ^ 8 ∧ e.2 < 256 ^ 8) :=
    fun e => (puts_writeInt 8 e.1).bind (puts_writeInt 8 e.2)
  have hlen : records.length * 16 = (records.flatMap fun e => le 8 e.1 ++ le 8 e.2).length := by
    rw [List.length_flatMap]
    simp [length_le]
  have hstep : ∀ (e : Nat × Nat) (entries : List (Nat × Nat)), e.1 < 256 ^ 8 ∧ e.2 < 256 ^ 8 →
      Reads (do
        let timestamp ← read8 exactly
        let offset ← read8 exactly
        pure (entries ++ [(timestamp, offset)])) (le 8 e.1 ++ le 8 e.2) (entries ++ [e]) :=
    fun e entries hP => (reads_int (by decide) hP.1).bind
      ((reads_int (by decide) hP.2).bind_pure fun offset => entries ++ [(e.1, offset)])
  have h := transfers_while hitem (fun e h => by simpa using congrArg List.length h) hstep
    records [] hlen
  have hfold : records.foldl (fun entries e => entries ++ [e]) [] = records := by
    have hacc : ∀ (l acc : List (Nat × Nat)), l.foldl (fun entries e => entries ++ [e]) acc =
        acc ++ l := by
      intro l
      induction l with
      | nil => simp
      | cons e l ih =>
        intro acc
        rw [List.foldl_cons, ih, List.append_assoc]
        rfl
    exact hacc records []
  rwa [hfold] at h

/-! ## Every type of record -/

theorem transfers_attachmentIndex (i : AttachmentIndex) :
    Transfers (do
      write8 i.offset
      write8 i.length
      write8 i.logTime
      write8 i.createTime
      write8 i.dataSize
      writePrefixedString i.name
      writePrefixedString i.mediaType) (AttachmentIndex.read exactly) i :=
  (transfers_8 _).bind ((transfers_8 _).bind ((transfers_8 _).bind ((transfers_8 _).bind
    ((transfers_8 _).bind ((transfers_string _).bind ((transfers_string _).last _))))))

theorem transfers_channel (c : Channel) :
    Transfers (do
      write2 c.id
      write2 c.schemaId
      writePrefixedString c.topic
      writePrefixedString c.messageEncoding
      RecordBuilder.writeStringMap c.metadata) (Channel.read exactly) c :=
  (transfers_2 _).bind ((transfers_2 _).bind ((transfers_string _).bind ((transfers_string _).bind
    ((transfers_stringMap _).last _))))

theorem transfers_chunk (c : Chunk) :
    Transfers (do
      write8 c.messageStartTime
      write8 c.messageEndTime
      write8 c.uncompressedSize
      write4 c.uncompressedCrc
      writePrefixedString c.compression
      write8 c.data.length
      RecordBuilder.write c.data) (Chunk.read exactly) c :=
  (transfers_8 _).bind ((transfers_8 _).bind ((transfers_8 _).bind ((transfers_4 _).bind
    ((transfers_string _).bind ((transfers_8 _).bind ((transfers_data _).last _))))))

theorem transfers_chunkIndex (i : ChunkIndex) :
    Transfers (do
      write8 i.messageStartTime
      write8 i.messageEndTime
      write8 i.chunkStartOffset
      write8 i.chunkLength
      RecordBuilder.writeIdMap i.messageIndexOffsets
      write8 i.messageIndexLength
      writePrefixedString i.compression
      write8 i.compressedSize
      write8 i.uncompressedSize) (ChunkIndex.read exactly) i :=
  (transfers_8 _).bind ((transfers_8 _).bind ((transfers_8 _).bind ((transfers_8 _).bind
    ((transfers_idMap _).bind ((transfers_8 _).bind ((transfers_string _).bind
      ((transfers_8 _).bind ((transfers_8 _).last _))))))))

theorem transfers_footer (f : Footer) :
    Transfers (do
      write8 f.summaryStart
      write8 f.summaryOffsetStart
      write4 f.summaryCrc) (Footer.read exactly) f :=
  (transfers_8 _).bind ((transfers_8 _).bind ((transfers_4 _).last _))

theorem transfers_header (h : Header) :
    Transfers (do
      writePrefixedString h.profile
      writePrefixedString h.library) (Header.read exactly) h :=
  (transfers_string _).bind ((transfers_string _).last _)

theorem transfers_messageIndex (i : MessageIndex) :
    Transfers (do
      write2 i.channelId
      write4 (i.records.length * 16)
      i.records.forM fun e => do
        write8 e.1
        write8 e.2) (MessageIndex.read exactly) i :=
  (transfers_2 _).bind ((transfers_entries _).last _)

theorem transfers_metadata (m : Metadata) :
    Transfers (do
      writePrefixedString m.name
      RecordBuilder.writeStringMap m.metadata) (Metadata.read exactly) m :=
  (transfers_string _).bind ((transfers_stringMap _).last _)

theorem transfers_metadataIndex (i : MetadataIndex) :
    Transfers (do
      write8 i.offset
      write8 i.length
      writePrefixedString i.name) (MetadataIndex.read exactly) i :=
  (transfers_8 _).bind ((transfers_8 _).bind ((transfers_string _).last _))

theorem transfers_schema (s : Schema) :
    Transfers (do
      write2 s.id
      writePrefixedString s.name
      writePrefixedString s.encoding
      write4 s.data.length
      RecordBuilder.write s.data) (Schema.read exactly) s :=
  (transfers_2 _).bind ((transfers_string _).bind ((transfers_string _).bind
    ((transfers_4 _).bind ((transfers_data _).last _))))

theorem transfers_statistics (s : Statistics) :
    Transfers (do
      write8 s.messageCount
      write2 s.schemaCount
      write4 s.channelCount
      write4 s.attachmentCount
      write4 s.metadataCount
      write4 s.chunkCount
      write8 s.messageStartTime
      write8 s.messageEndTime
      RecordBuilder.writeIdMap s.channelMessageCounts) (Statistics.read exactly) s :=
  (transfers_8 _).bind ((transfers_2 _).bind ((transfers_4 _).bind ((transfers_4 _).bind
    ((transfers_4 _).bind ((transfers_4 _).bind ((transfers_8 _).bind ((transfers_8 _).bind
      ((transfers_idMap _).last _))))))))

theorem transfers_summaryOffset (o : SummaryOffset) :
    Transfers (do
      write1 o.groupOpcode
      write8 o.groupStart
      write8 o.groupLength) (SummaryOffset.read exactly) o :=
  (transfers_1 _).bind ((transfers_8 _).bind ((transfers_8 _).last _))

theorem transfers_message {m : Message} (h : (do
      write2 m.channelId
      write4 m.sequence
      write8 m.logTime
      write8 m.publishTime
      RecordBuilder.write m.data : Building) b = .ok ((), b')) :
    ∃ bytes, Grown b b' bytes ∧ Reads (Message.read exactly bytes.length) bytes m := by
  obtain ⟨⟨hid, hsequence, hlog, hpublish, hdata⟩, hgrown⟩ :=
    (puts_writeInt 2 m.channelId).bind ((puts_writeInt 4 m.sequence).bind
      ((puts_writeInt 8 m.logTime).bind ((puts_writeInt 8 m.publishTime).bind
        (puts_write m.data)))) b b' h
  refine ⟨_, hgrown, ?_⟩
  have hlen : ((le 2 m.channelId ++ (le 4 m.sequence ++ (le 8 m.logTime ++ (le 8 m.publishTime ++
      m.data)))).length : Int) - 22 = m.data.length := by
    simp only [List.length_append, length_le]
    omega
  unfold Message.read
  rw [hlen]
  exact (reads_int (by decide) hid).bind ((reads_int (by decide) hsequence).bind
    ((reads_int (by decide) hlog).bind ((reads_int (by decide) hpublish).bind
      ((reads_exactly m.data hdata).bind_pure _))))

/-! ## Records that were written -/

/-- A record that was written, with the bytes of its body, from which it is read. -/
structure Written where
  record : McapRecord
  body : Bytes
  bounded : body.length ≤ sysMaxsize
  reads : Reads (readRecord exactly record.opcode body.length) body (some record)

namespace Written

/-- The record as a piece of a file. -/
def piece (x : Written) : Piece := ⟨x.record.opcode, x.body, some x.record⟩

/-- The opcode and the body. -/
def framed (x : Written) : UInt8 × Bytes := (x.record.opcode, x.body)

/-- The bytes. -/
def bytes (x : Written) : Bytes := frame x.record.opcode x.body

end Written

theorem startRecord_eq_ok (h : startRecord opcode b = .ok ((), b')) :
    b' = ⟨b.buffer ++ opcode :: le 8 0, b.buffer.length⟩ ∧ b'.buffer.length ≤ sysMaxsize := by
  change RecordBuilder.write (opcode :: le 8 0) { b with recordStartOffset := b.buffer.length } = _
    at h
  refine ⟨?_, length_of_write h⟩
  unfold RecordBuilder.write at h
  split at h
  · cases h
  · cases h
    rfl

theorem finishRecord_eq_ok {front body : Bytes}
    (hbuffer : b.buffer = front ++ opcode :: le 8 0 ++ body)
    (hstart : b.recordStartOffset = front.length) (h : finishRecord b = .ok ((), b')) :
    b'.buffer = front ++ frame opcode body := by
  have hlength : b.buffer.length - b.recordStartOffset - 9 = body.length := by
    rw [hbuffer, hstart]
    simp only [List.length_append, List.length_cons, length_le]
    omega
  have htake : b.buffer.take (b.recordStartOffset + 1) = front ++ [opcode] := by
    rw [hbuffer, hstart, show front ++ opcode :: le 8 0 ++ body =
      (front ++ [opcode]) ++ (le 8 0 ++ body) by simp]
    exact List.take_left' (by rw [List.length_append]; rfl)
  have hdrop : b.buffer.drop (b.recordStartOffset + 9) = body := by
    rw [hbuffer, hstart]
    exact List.drop_left' (by simp [length_le])
  unfold finishRecord pack at h
  rw [hlength] at h
  dsimp only at h
  by_cases hfits : body.length < 256 ^ 8
  · rw [if_pos hfits] at h
    cases h
    show b.buffer.take (b.recordStartOffset + 1) ++ le 8 body.length ++
      b.buffer.drop (b.recordStartOffset + 9) = _
    rw [htake, hdrop]
    simp [frame]
  · rw [if_neg hfits] at h
    cases h

/-- **A record that was written between `start_record` and `finish_record`** is a frame. -/
theorem record_eq_ok {fields : Building} {Q : Bytes → Prop}
    (hfields : ∀ b b', fields b = .ok ((), b') → ∃ body, Grown b b' body ∧ Q body)
    (h : record opcode fields b = .ok ((), b')) :
    ∃ body, b'.buffer = b.buffer ++ frame opcode body ∧ b'.buffer.length ≤ sysMaxsize ∧
      body.length ≤ sysMaxsize ∧ Q body := by
  obtain ⟨b₁, hb₁, hrest⟩ := bind_eq_ok h
  obtain ⟨b₂, hb₂, hfinish⟩ := bind_eq_ok hrest
  obtain ⟨rfl, hbounded⟩ := startRecord_eq_ok hb₁
  obtain ⟨body, hgrown, hQ⟩ := hfields _ _ hb₂
  have hbuffer := finishRecord_eq_ok hgrown.buffer hgrown.start hfinish
  have hlen := hgrown.bounded hbounded
  rw [hgrown.buffer] at hlen
  simp only [List.length_append, List.length_cons, length_le] at hlen
  refine ⟨body, hbuffer, ?_, by omega, hQ⟩
  rw [hbuffer, List.length_append, length_frame]
  omega

/-- The body of an attachment with a checksum. -/
def attachmentBody (a : Attachment) (crc : Nat) : Bytes :=
  le 8 a.logTime ++ (le 8 a.createTime ++ (writeString a.name ++ (writeString a.mediaType ++
    (le 8 a.data.length ++ (a.data ++ le 4 crc)))))

/-- The fields of an attachment fit. -/
structure AttachmentFits (a : Attachment) : Prop where
  logTime : a.logTime < 256 ^ 8
  createTime : a.createTime < 256 ^ 8
  name : StringFits a.name
  mediaType : StringFits a.mediaType
  length : a.data.length < 256 ^ 8
  data : a.data.length ≤ sysMaxsize

theorem puts_attachment (a : Attachment) :
    Puts a.writeFields (attachmentBody a 0) (AttachmentFits a) := by
  intro b b' h
  obtain ⟨⟨hlog, hcreate, hname, hmedia, hlen, hdata, -⟩, hgrown⟩ :=
    (puts_writeInt 8 a.logTime).bind ((puts_writeInt 8 a.createTime).bind
      ((puts_writePrefixedString a.name).bind ((puts_writePrefixedString a.mediaType).bind
        ((puts_writeInt 8 a.data.length).bind ((puts_write a.data).bind
          (puts_writeInt 4 0)))))) b b' h
  exact ⟨⟨hlog, hcreate, hname, hmedia, hlen, hdata⟩, hgrown⟩

theorem reads_attachment {a : Attachment} (h : AttachmentFits a) {crc : Nat} (hcrc : crc < 256 ^ 4) :
    Reads (Attachment.read exactly) (attachmentBody a crc) a :=
  (reads_int (by decide) h.logTime).bind ((reads_int (by decide) h.createTime).bind
    ((reads_string' h.name).bind ((reads_string' h.mediaType).bind
      ((reads_int (by decide) h.length).bind ((reads_exactly a.data h.data).bind
        ((reads_int (by decide) hcrc).bind_pure _))))))

theorem Attachment.write_eq_ok {a : Attachment} (h : a.write b = .ok ((), b')) :
    ∃ x : Written, x.record = .attachment a ∧ b'.buffer = b.buffer ++ x.bytes ∧
      b'.buffer.length ≤ sysMaxsize := by
  obtain ⟨⟨⟨⟩, own⟩, hown, h⟩ := Mcap.bind_eq_ok h
  obtain ⟨body, hbuffer, -, hsize, hfits, hbody⟩ := record_eq_ok
    (Q := fun body => AttachmentFits a ∧ body = attachmentBody a 0)
    (fun b b' h => ⟨_, (puts_attachment a b b' h).2, (puts_attachment a b b' h).1, rfl⟩) hown
  obtain ⟨⟨-, hcrc⟩, hgrown⟩ := ((puts_write _).bind (puts_writeInt 4 _)) b b' h
  obtain ⟨_, -, hlast⟩ := bind_eq_ok h
  -- what is copied, with the checksum, is a frame of the same length
  obtain ⟨crc, hcrc'⟩ : ∃ crc, (crc32 ((own.buffer.take (own.buffer.length - 4)).drop 9)).toNat =
      crc := ⟨_, rfl⟩
  rw [hcrc'] at hcrc hgrown
  have hlen : (attachmentBody a crc).length = body.length := by
    rw [hbody]
    unfold attachmentBody
    simp only [List.length_append, length_le]
  have hcopy : own.buffer.take (own.buffer.length - 4) ++ le 4 crc =
      frame op.ATTACHMENT (attachmentBody a crc) := by
    have hown' : own.buffer = (op.ATTACHMENT :: (le 8 body.length ++
        (le 8 a.logTime ++ (le 8 a.createTime ++ (writeString a.name ++ (writeString a.mediaType ++
          (le 8 a.data.length ++ a.data))))))) ++ le 4 0 := by
      rw [hbuffer, hbody]
      simp [RecordBuilder.new, frame, attachmentBody]
    rw [hown', List.length_append, length_le, Nat.add_sub_cancel, List.take_left' rfl]
    unfold frame
    rw [hlen]
    simp [attachmentBody]
  rw [hcopy] at hgrown
  refine ⟨⟨.attachment a, attachmentBody a crc, hlen ▸ hsize, ?_⟩, rfl, hgrown.buffer, ?_⟩
  · exact ((reads_attachment hfits hcrc).map McapRecord.attachment).map some
  · exact length_of_write (writeInt_eq_ok hlast).2

/-- **The method `write` of a record**: what it has added, when it returns, is the record. -/
theorem write_eq_ok (record : McapRecord) (h : record.write b = .ok ((), b')) :
    ∃ x : Written, x.record = record ∧ b'.buffer = b.buffer ++ x.bytes ∧
      b'.buffer.length ≤ sysMaxsize := by
  have main : ∀ {opcode : UInt8} {fields : Building} {α : Type} {r : Read PyError α} {a : α}
      {f : α → McapRecord}, record.opcode = opcode → record = f a →
      (∀ n, readRecord exactly opcode n = some <$> f <$> r) → Transfers fields r a →
      RecordBuilder.record opcode fields b = .ok ((), b') →
      ∃ x : Written, x.record = record ∧ b'.buffer = b.buffer ++ x.bytes ∧
        b'.buffer.length ≤ sysMaxsize := by
    intro opcode fields α r a f hop hrecord hread htransfers h
    obtain ⟨body, hbuffer, hbounded, hsize, hreads⟩ := record_eq_ok htransfers h
    subst hop
    refine ⟨⟨record, body, hsize, ?_⟩, rfl, hbuffer, hbounded⟩
    rw [hread, hrecord]
    exact (hreads.map f).map some
  cases record with
  | attachment a => exact Attachment.write_eq_ok h
  | message m =>
    obtain ⟨body, hbuffer, hbounded, hsize, hreads⟩ :=
      record_eq_ok (fun _ _ => transfers_message) h
    exact ⟨⟨.message m, body, hsize, (hreads.map McapRecord.message).map some⟩, rfl, hbuffer,
      hbounded⟩
  | attachmentIndex i => exact main rfl rfl (fun _ => rfl) (transfers_attachmentIndex i) h
  | channel c => exact main rfl rfl (fun _ => rfl) (transfers_channel c) h
  | chunk c => exact main rfl rfl (fun _ => rfl) (transfers_chunk c) h
  | chunkIndex i => exact main rfl rfl (fun _ => rfl) (transfers_chunkIndex i) h
  | dataEnd d => exact main rfl rfl (fun _ => rfl) ((transfers_4 _).last DataEnd.mk) h
  | footer f => exact main rfl rfl (fun _ => rfl) (transfers_footer f) h
  | header d => exact main rfl rfl (fun _ => rfl) (transfers_header d) h
  | messageIndex i => exact main rfl rfl (fun _ => rfl) (transfers_messageIndex i) h
  | metadata m => exact main rfl rfl (fun _ => rfl) (transfers_metadata m) h
  | metadataIndex i => exact main rfl rfl (fun _ => rfl) (transfers_metadataIndex i) h
  | schema s => exact main rfl rfl (fun _ => rfl) (transfers_schema s) h
  | statistics s => exact main rfl rfl (fun _ => rfl) (transfers_statistics s) h
  | summaryOffset o => exact main rfl rfl (fun _ => rfl) (transfers_summaryOffset o) h

end Py
end Mcap

import Mcap.TsJournal

/-! # How the writer of the TypeScript library ends a file

Behind the data section come the summary, in groups of records of one opcode, then the offsets of those
groups that are not empty, and the footer.  The record builder is empty where a group starts, so that
its offset is the position of the writer (`Summed.group`).

`file_parts` says what a file is made of, whatever calls there were, and `indexes_point` that its
indexes are right: those of chunks always are, those of attachments and metadata if nothing waited in
the record builder when they were taken, and the footer if there is something to summarize.
-/
namespace Mcap
namespace Ts

open McapRecordBuilder BufferBuilder

/-! ## Groups of the summary -/

/-- Records of one opcode. -/
structure Section where
  opcode : UInt8
  records : List TypedMcapRecord

/-- The records of the summary. -/
def recordsOf (l : List Section) : List TypedMcapRecord := l.flatMap Section.records

@[simp] theorem recordsOf_nil : recordsOf [] = [] := rfl

@[simp] theorem recordsOf_append (l l' : List Section) :
    recordsOf (l ++ l') = recordsOf l ++ recordsOf l' := List.flatMap_append

theorem recordsOf_cons (s : Section) (l : List Section) :
    recordsOf (s :: l) = s.records ++ recordsOf l := rfl

/-- The offsets of groups that stand one after the other. -/
def offsetsOf : Nat → List Section → List SummaryOffset
  | _, [] => []
  | pos, s :: l =>
      ⟨s.opcode.toNat, pos, (recordBytes s.records).length⟩ ::
        offsetsOf (pos + (recordBytes s.records).length) l

theorem offsetsOf_append (pos : Nat) (l l' : List Section) :
    offsetsOf pos (l ++ l') =
      offsetsOf pos l ++ offsetsOf (pos + (recordBytes (recordsOf l)).length) l' := by
  induction l generalizing pos with
  | nil => rfl
  | cons s l ih =>
    rw [List.cons_append, offsetsOf, offsetsOf, ih, recordsOf_cons, recordBytes_append,
      List.length_append, Nat.add_assoc]
    rfl

/-- **An offset** is that of a group behind others. -/
theorem mem_offsetsOf {pos : Nat} {l : List Section} {o : SummaryOffset} (h : o ∈ offsetsOf pos l) :
    ∃ front s back, l = front ++ s :: back ∧
      o = ⟨s.opcode.toNat, pos + (recordBytes (recordsOf front)).length,
        (recordBytes s.records).length⟩ := by
  induction l generalizing pos with
  | nil => cases h
  | cons s l ih =>
    rcases List.mem_cons.mp h with rfl | h
    · exact ⟨[], s, l, rfl, rfl⟩
    · obtain ⟨front, s', back, rfl, rfl⟩ := ih h
      refine ⟨s :: front, s', back, rfl, ?_⟩
      rw [recordsOf_cons, recordBytes_append, List.length_append, Nat.add_assoc]

theorem exists_offset (pos : Nat) {l : List Section} (h : recordsOf l ≠ []) :
    ∃ o ∈ offsetsOf pos l, o.groupLength ≠ 0 := by
  induction l generalizing pos with
  | nil => exact absurd rfl h
  | cons s l ih =>
    cases hrecords : s.records with
    | nil =>
      rw [recordsOf_cons, hrecords, List.nil_append] at h
      obtain ⟨o, ho, hne⟩ := ih (pos + (recordBytes s.records).length) h
      exact ⟨o, List.mem_cons_of_mem _ ho, hne⟩
    | cons r records =>
      refine ⟨_, List.mem_cons_self, ?_⟩
      show (recordBytes s.records).length ≠ 0
      rw [hrecords, recordBytes_cons, List.length_append]
      have hpos : 0 < r.bytes.length := Nat.succ_pos _
      omega

/-- **A writer at its summary**: the groups that there are, of which the last may wait in the record
builder. -/
structure Summed (front : Bytes) (e : McapWriter.Ending) (groups : List Section)
    (pending : List TypedMcapRecord) : Prop where
  output : ∃ flushed, recordsOf groups = flushed ++ pending ∧
    e.writer.writable = front ++ recordBytes flushed ∧
    e.summaryCrc = crc32Update crc32Init (recordBytes flushed)
  sized : e.writer.recordWriter.Sized
  buffer : e.writer.recordWriter.buffer = recordBytes pending
  offsets : e.summaryOffsets = offsetsOf front.length groups

section
variable {front : Bytes} {e : McapWriter.Ending} {groups : List Section}
  {pending : List TypedMcapRecord}
  {α : Type} {write : α → McapRecordBuilder → McapRecordBuilder × Nat} {kind : α → TypedMcapRecord}

theorem Summed.flush (h : Summed front e groups pending) : Summed front e.flush groups [] := by
  obtain ⟨flushed, hrecords, hwritable, hcrc⟩ := h.output
  refine ⟨⟨flushed ++ pending, by rw [hrecords, List.append_nil], ?_, ?_⟩, Sized.reset, buffer_reset,
    h.offsets⟩
  · show e.writer.writable ++ e.writer.recordWriter.buffer = _
    rw [hwritable, h.buffer, recordBytes_append, List.append_assoc]
  · show crc32Update e.summaryCrc e.writer.recordWriter.buffer = _
    rw [hcrc, h.buffer, recordBytes_append, crc32Update_append]

theorem writes_records (hwrite : ∀ a, Writes (write a) (kind a)) (records : List α)
    {b : McapRecordBuilder} (hb : b.Sized) (length : Nat) :
    (records.foldl (fun x record =>
        ((write record x.1).1, x.2 + (write record x.1).2)) (b, length)).1.Sized ∧
      (records.foldl (fun x record =>
        ((write record x.1).1, x.2 + (write record x.1).2)) (b, length)).1.buffer =
        b.buffer ++ recordBytes (records.map kind) ∧
      (records.foldl (fun x record =>
        ((write record x.1).1, x.2 + (write record x.1).2)) (b, length)).2 =
        length + (recordBytes (records.map kind)).length := by
  induction records generalizing b length with
  | nil => exact ⟨hb, (List.append_nil _).symm, rfl⟩
  | cons a records ih =>
    obtain ⟨hsized, hbuffer, hlength⟩ := hwrite a b hb
    obtain ⟨hsized', hbuffer', hlength'⟩ := ih hsized (length + (write a b).2)
    refine ⟨hsized', hbuffer'.trans ?_, hlength'.trans ?_⟩
    · rw [hbuffer, List.map_cons, recordBytes_cons, List.append_assoc]
    · rw [hlength, List.map_cons, recordBytes_cons, List.length_append, Nat.add_assoc]

/-- **A group**, where nothing waits. -/
theorem Summed.group (h : Summed front e groups []) (opcode : UInt8)
    (hwrite : ∀ a, Writes (write a) (kind a)) (records : List α) :
    Summed front (e.group opcode write records) (groups ++ [⟨opcode, records.map kind⟩])
      (records.map kind) := by
  obtain ⟨flushed, hrecords, hwritable, hcrc⟩ := h.output
  rw [List.append_nil] at hrecords
  obtain ⟨hsized, hbuffer, hlength⟩ := writes_records hwrite records h.sized 0
  refine ⟨⟨flushed, ?_, hwritable, hcrc⟩, hsized, ?_, ?_⟩
  · rw [recordsOf_append, hrecords, recordsOf_cons, recordsOf_nil, List.append_nil]
  · exact hbuffer.trans (by rw [h.buffer]; rfl)
  · have hposition : e.writer.position = front.length + (recordBytes (recordsOf groups)).length := by
      unfold McapWriter.position
      rw [hwritable, List.length_append, hrecords]
    rw [offsetsOf_append, ← h.offsets]
    refine congrArg (e.summaryOffsets ++ ·) ?_
    show [SummaryOffset.mk _ e.writer.position _] = [_]
    rw [hposition]
    exact congrArg (fun n => [SummaryOffset.mk opcode.toNat
      (front.length + (recordBytes (recordsOf groups)).length) n]) (hlength.trans (Nat.zero_add _))

theorem Summed.next (h : Summed front e groups pending) (opcode : UInt8)
    (hwrite : ∀ a, Writes (write a) (kind a)) (records : List α) :
    Summed front (e.flush.group opcode write records) (groups ++ [⟨opcode, records.map kind⟩])
      (records.map kind) :=
  h.flush.group opcode hwrite records

theorem Summed.nextIf (h : ∃ pending, Summed front e groups pending) (wanted : Bool) (opcode : UInt8)
    (hwrite : ∀ a, Writes (write a) (kind a)) (records : List α) :
    ∃ pending, Summed front (if wanted then e.flush.group opcode write records else e)
      (groups ++ if wanted then [⟨opcode, records.map kind⟩] else []) pending := by
  obtain ⟨pending, h⟩ := h
  cases wanted with
  | true => exact ⟨_, h.next opcode hwrite records⟩
  | false =>
    refine ⟨pending, ?_⟩
    rw [if_neg Bool.false_ne_true, if_neg Bool.false_ne_true, List.append_nil]
    exact h

variable (write) in
/-- A group behind others, if there are records for it. -/
def groupOf (opcode : UInt8) (records : Option (List α)) (e : McapWriter.Ending) : McapWriter.Ending :=
  match records with
  | some records => e.flush.group opcode write records
  | none => e

theorem Summed.nextOf (h : ∃ pending, Summed front e groups pending) (opcode : UInt8)
    (hwrite : ∀ a, Writes (write a) (kind a)) (records : Option (List α)) :
    ∃ pending, Summed front (groupOf write opcode records e)
      (groups ++ records.toList.map fun records => ⟨opcode, records.map kind⟩) pending := by
  obtain ⟨pending, h⟩ := h
  cases records with
  | some records => exact ⟨_, h.next opcode hwrite records⟩
  | none => exact ⟨pending, by rw [Option.toList_none, List.map_nil, List.append_nil]; exact h⟩

end

theorem groups_eq (options : McapWriterOptions) (e : McapWriter.Ending) :
    e.groups options =
      (groupOf writeChunkIndex Opcode.CHUNK_INDEX e.writer.chunkIndices <|
        groupOf writeAttachmentIndex Opcode.ATTACHMENT_INDEX e.writer.attachmentIndices <|
        groupOf writeMetadataIndex Opcode.METADATA_INDEX e.writer.metadataIndices <|
        McapWriter.Ending.flush <|
        groupOf writeStatistics Opcode.STATISTICS (e.writer.statistics.map fun s => [s]) <|
        (fun e' => if options.repeatChannels then
          e'.flush.group Opcode.CHANNEL writeChannel e.writer.channels.values else e') <|
        if options.repeatSchemas then e.group Opcode.SCHEMA writeSchema e.writer.schemas.values
        else e).flush := by
  unfold McapWriter.Ending.groups
  dsimp only
  cases e.writer.statistics <;> cases e.writer.metadataIndices <;>
    cases e.writer.attachmentIndices <;> cases e.writer.chunkIndices <;> rfl

/-- **The groups of the summary.** -/
def sectionsOf (options : McapWriterOptions) (w : McapWriter) : List Section :=
  (if options.repeatSchemas then [⟨Opcode.SCHEMA, w.schemas.values.map .schema⟩] else []) ++
  (if options.repeatChannels then [⟨Opcode.CHANNEL, w.channels.values.map .channel⟩] else []) ++
  (w.statistics.toList.map fun s => ⟨Opcode.STATISTICS, [.statistics s]⟩) ++
  (w.metadataIndices.toList.map fun l => ⟨Opcode.METADATA_INDEX, l.map .metadataIndex⟩) ++
  (w.attachmentIndices.toList.map fun l => ⟨Opcode.ATTACHMENT_INDEX, l.map .attachmentIndex⟩) ++
  w.chunkIndices.toList.map fun l => ⟨Opcode.CHUNK_INDEX, l.map .chunkIndex⟩

theorem groups_spec {front : Bytes} {e : McapWriter.Ending} (options : McapWriterOptions)
    (h : Summed front e [] []) :
    Summed front (e.groups options) (sectionsOf options e.writer) [] := by
  have hschemas : ∃ pending, Summed front
      (if options.repeatSchemas then e.group Opcode.SCHEMA writeSchema e.writer.schemas.values else e)
      (if options.repeatSchemas then [⟨Opcode.SCHEMA, e.writer.schemas.values.map .schema⟩] else [])
      pending := by
    cases options.repeatSchemas with
    | true => exact ⟨_, h.group Opcode.SCHEMA writes_schema _⟩
    | false => exact ⟨_, h⟩
  have hchannels := Summed.nextIf hschemas options.repeatChannels Opcode.CHANNEL writes_channel
    e.writer.channels.values
  have hstatistics := Summed.nextOf hchannels Opcode.STATISTICS writes_statistics
    (e.writer.statistics.map fun s => [s])
  obtain ⟨pending, hstatistics⟩ := hstatistics
  have hmetadata := Summed.nextOf ⟨_, hstatistics.flush⟩ Opcode.METADATA_INDEX writes_metadataIndex
    e.writer.metadataIndices
  have hattachments := Summed.nextOf hmetadata Opcode.ATTACHMENT_INDEX writes_attachmentIndex
    e.writer.attachmentIndices
  obtain ⟨pending', hchunks⟩ := Summed.nextOf hattachments Opcode.CHUNK_INDEX writes_chunkIndex
    e.writer.chunkIndices
  have hall := hchunks.flush
  rw [groups_eq]
  unfold sectionsOf
  cases hstats : e.writer.statistics with
  | none | some s =>
    rw [hstats] at hall
    exact hall

/-! ## The parts of a file -/

/-- What a file consists of, but for the magic bytes. -/
structure Parts where
  items : List Item
  dataEnd : DataEnd
  groups : List Section
  offsets : List SummaryOffset
  footer : Footer

namespace Parts

/-- What stands before the summary. -/
def front (base : Bytes) (p : Parts) : Bytes :=
  base ++ (Item.allBytes p.items ++ (TypedMcapRecord.dataEnd p.dataEnd).bytes)

/-- The summary. -/
def summary (p : Parts) : Bytes := recordBytes (recordsOf p.groups)

/-- What stands behind the summary. -/
def back (p : Parts) : Bytes :=
  recordBytes (p.offsets.map .summaryOffset) ++ ((TypedMcapRecord.footer p.footer).bytes ++ MAGIC)

def bytes (base : Bytes) (p : Parts) : Bytes := p.front base ++ (p.summary ++ p.back)

/-- **Offsets, footer and checksums** as they are written. -/
structure Ended (options : McapWriterOptions) (base : Bytes) (p : Parts) : Prop where
  offsets : p.offsets = if options.useSummaryOffsets then
    (offsetsOf (p.front base).length p.groups).filter fun o => o.groupLength ≠ 0 else []
  summaryStart : p.footer.summaryStart =
    if p.summary.length = 0 then 0 else (p.front base).length
  summaryOffsetStart : p.footer.summaryOffsetStart =
    if options.useSummaryOffsets then (p.front base).length + p.summary.length else 0
  summaryCrc : p.footer.summaryCrc = (crc32 (p.summary ++ (recordBytes (p.offsets.map .summaryOffset) ++
    McapWriter.Ending.tempBuffer p.footer))).toNat

end Parts

/-- **The end of a file**, behind the summary. -/
theorem finish_spec (options : McapWriterOptions) {base : Bytes} {items : List Item} {dataEnd : DataEnd}
    {groups : List Section} {e : McapWriter.Ending}
    (h : Summed (Parts.front base ⟨items, dataEnd, [], [], ⟨0, 0, 0⟩⟩) e groups []) :
    ∃ offsets footer, Parts.Ended options base ⟨items, dataEnd, groups, offsets, footer⟩ ∧
      (e.finish options (Parts.front base ⟨items, dataEnd, [], [], ⟨0, 0, 0⟩⟩).length).writable =
        Parts.bytes base ⟨items, dataEnd, groups, offsets, footer⟩ := by
  obtain ⟨flushed, hrecords, hwritable, hcrc⟩ := h.output
  rw [List.append_nil] at hrecords
  subst hrecords
  -- the offsets
  have hfold : ∀ (l : List SummaryOffset) (b : McapRecordBuilder), b.Sized →
      (l.foldl (fun recordWriter summaryOffset =>
        if summaryOffset.groupLength ≠ 0 then (writeSummaryOffset summaryOffset recordWriter).1
        else recordWriter) b).Sized ∧
      (l.foldl (fun recordWriter summaryOffset =>
        if summaryOffset.groupLength ≠ 0 then (writeSummaryOffset summaryOffset recordWriter).1
        else recordWriter) b).buffer =
        b.buffer ++ recordBytes ((l.filter fun o => o.groupLength ≠ 0).map .summaryOffset) := by
    intro l
    induction l with
    | nil => exact fun b hb => ⟨hb, (List.append_nil _).symm⟩
    | cons o l ih =>
      intro b hb
      by_cases hne : o.groupLength ≠ 0
      · obtain ⟨hsized, hbuffer, -⟩ := writes_summaryOffset o b hb
        obtain ⟨hsized', hbuffer'⟩ := ih _ hsized
        have hfilter : ((o :: l).filter fun o => o.groupLength ≠ 0) =
            o :: l.filter fun o => o.groupLength ≠ 0 := List.filter_cons_of_pos (decide_eq_true hne)
        rw [List.foldl_cons, if_pos hne, hfilter, List.map_cons, recordBytes_cons]
        exact ⟨hsized', by rw [hbuffer', hbuffer, List.append_assoc]⟩
      · have hfilter : ((o :: l).filter fun o => o.groupLength ≠ 0) =
            l.filter fun o => o.groupLength ≠ 0 := List.filter_cons_of_neg (by simpa using hne)
        rw [List.foldl_cons, if_neg hne, hfilter]
        exact ih b hb
  have hposition : e.writer.position = (Parts.front base ⟨items, dataEnd, [], [], ⟨0, 0, 0⟩⟩).length +
      (recordBytes (recordsOf groups)).length := by
    unfold McapWriter.position
    rw [hwritable, List.length_append]
  obtain ⟨offsets, b, hoffsets, hb, hsized, hbuffer⟩ : ∃ offsets b,
      offsets = (if options.useSummaryOffsets then
        (offsetsOf (Parts.front base ⟨items, dataEnd, [], [], ⟨0, 0, 0⟩⟩).length groups).filter
          fun o => o.groupLength ≠ 0 else []) ∧
      b = (if options.useSummaryOffsets then
        e.summaryOffsets.foldl (fun recordWriter summaryOffset =>
          if summaryOffset.groupLength ≠ 0 then (writeSummaryOffset summaryOffset recordWriter).1
          else recordWriter) e.writer.recordWriter
        else e.writer.recordWriter) ∧
      BufferBuilder.Sized b ∧ b.buffer = recordBytes (offsets.map .summaryOffset) := by
    refine ⟨_, _, rfl, rfl, ?_⟩
    cases options.useSummaryOffsets with
    | true =>
      obtain ⟨hsized, hbuffer⟩ := hfold e.summaryOffsets e.writer.recordWriter h.sized
      refine ⟨hsized, hbuffer.trans ?_⟩
      rw [h.buffer, h.offsets]
      rfl
    | false => exact ⟨h.sized, h.buffer⟩
  -- the footer
  let start := if (recordBytes (recordsOf groups)).length = 0 then 0
    else (Parts.front base ⟨items, dataEnd, [], [], ⟨0, 0, 0⟩⟩).length
  let offsetStart := if options.useSummaryOffsets then
    (Parts.front base ⟨items, dataEnd, [], [], ⟨0, 0, 0⟩⟩).length +
      (recordBytes (recordsOf groups)).length
    else 0
  let crc := (crc32 (recordBytes (recordsOf groups) ++ (recordBytes (offsets.map .summaryOffset) ++
    McapWriter.Ending.tempBuffer ⟨start, offsetStart, 0⟩))).toNat
  refine ⟨offsets, ⟨start, offsetStart, crc⟩, ⟨hoffsets, rfl, rfl, rfl⟩, ?_⟩
  obtain ⟨hsized', hbuffer'⟩ := puts_footer ⟨start, offsetStart, crc⟩ b hsized
  obtain ⟨-, hmagic⟩ := puts_bytes MAGIC (writeFooter ⟨start, offsetStart, crc⟩ b).1 hsized'
  have hwritten : (e.finish options
      (Parts.front base ⟨items, dataEnd, [], [], ⟨0, 0, 0⟩⟩).length).writable =
      e.writer.writable ++ (writeMagic (writeFooter ⟨start, offsetStart, crc⟩ b).1).buffer := by
    have hcrcEq : (crc32Final (crc32Update (crc32Update e.summaryCrc b.buffer)
        (McapWriter.Ending.tempBuffer ⟨start, offsetStart, 0⟩))).toNat = crc := by
      rw [hcrc, hbuffer, ← crc32Update_append, ← crc32Update_append,
        crc32Final_crc32Update]
    unfold McapWriter.Ending.finish
    dsimp only
    rw [← hb, hposition, Nat.add_sub_cancel_left]
    show e.writer.writable ++ (writeMagic (writeFooter ⟨start, offsetStart, _⟩ b).1).buffer = _
    rw [hcrcEq]
  rw [hwritten, hwritable]
  show _ ++ (McapRecordBuilder.writeMagic _).buffer = _
  rw [show (writeMagic (writeFooter ⟨start, offsetStart, crc⟩ b).1).buffer = _ from hmagic, hbuffer',
    hbuffer]
  unfold Parts.bytes Parts.summary Parts.back
  simp only [List.append_assoc]
  rfl

section
variable {options : McapWriterOptions} {B : Base} {w : McapWriter} {flushed pending : List Item}
  {inner : List TypedMcapRecord}

theorem Laid.flushData {waiting : Option Nat} (h : Laid options B w flushed pending inner waiting) :
    Laid options B w.flushData (flushed ++ pending) [] inner waiting where
  tape := h.tape.flushData
  chunked := h.chunked.append h.pending_plain rfl
  opened c hc := ⟨(h.opened c hc).1, rfl⟩
  closed := h.closed
  content _ hi := absurd hi List.not_mem_nil

theorem Marked.flushData (h : Marked B w flushed) : Marked B w.flushData flushed := ⟨h.1, h.2⟩

/-- The writer that has written its data section. -/
def dataWritten (options : McapWriterOptions) (w : McapWriter) : McapWriter :=
  (w.finalizeChunk options).flushData

/-- **The data section** when the last chunk has been closed. -/
theorem Laid.dataWritten (h : Laid options B w flushed pending inner none) :
    ∃ more inner', Laid options B (dataWritten options w) (flushed ++ more) [] inner' none ∧
      (Marked B w flushed → Marked B (dataWritten options w) (flushed ++ more)) := by
  obtain ⟨closed, inner', hlaid, -, -, hcloses⟩ := h.closes
  have hleaves : Leaves w (w.finalizeChunk options) := leaves_finalizeChunk w
  refine ⟨closed ++ pending, inner', ?_, fun hmarked => ?_⟩
  · rw [← List.append_assoc]
    exact hlaid.flushData
  · refine Marked.flushData (hmarked.append ?_ hleaves.attachmentIndices hleaves.metadataIndices)
    intro i hi
    rcases List.mem_append.mp hi with hi | hi
    · exact hcloses.unmarked i hi
    · obtain ⟨r, hr, rfl⟩ := h.content i hi
      exact ⟨hr.attachment?, hr.metadata?⟩

/-- **What `end` writes** behind the data section. -/
theorem end_spec {items : List Item} (h : Tape B (dataWritten options w) items [])
    (hcrc : w.dataSectionCrc.isSome = true) :
    ∃ p : Parts, (w.end' options).writable = p.bytes B.front ∧ p.Ended options B.front ∧
      p.items = items ∧ p.groups = sectionsOf options (dataWritten options w) ∧
      p.dataEnd.dataSectionCrc = (crc32 (B.front ++ Item.allBytes items)).toNat := by
  have hsome : (dataWritten options w).dataSectionCrc.isSome = true := by
    have hleaves : Leaves w (dataWritten options w) := (leaves_finalizeChunk w).trans (leaves_flushData _)
    exact hleaves.crc.trans hcrc
  obtain ⟨crc, hcrc'⟩ := Option.isSome_iff_exists.mp hsome
  have hvalue := h.crc crc hcrc'
  let dataEnd : DataEnd := ⟨(crc32 (B.front ++ Item.allBytes items)).toNat⟩
  obtain ⟨hsized, hbuffer⟩ := puts_dataEnd dataEnd (dataWritten options w).recordWriter h.sized
  have hend : w.end' options =
      (({ writer := McapWriter.flush { dataWritten options w with
            recordWriter := (writeDataEnd dataEnd (dataWritten options w).recordWriter).1 }
          summaryCrc := crc32Init
          summaryOffsets := [] } : McapWriter.Ending).groups options).finish options
        (McapWriter.flush { dataWritten options w with
          recordWriter := (writeDataEnd dataEnd (dataWritten options w).recordWriter).1 }).position := by
    have hfinal : (crc32Final crc).toNat = (crc32 (B.front ++ Item.allBytes items)).toNat := by
      rw [hvalue, crc32Final_crc32Update, h.writable]
    unfold McapWriter.end'
    simp only [show (w.finalizeChunk options).flushData = dataWritten options w from rfl, hcrc',
      hfinal]
    rfl
  have hwritable : (McapWriter.flush { dataWritten options w with
      recordWriter := (writeDataEnd dataEnd (dataWritten options w).recordWriter).1 }).writable =
      Parts.front B.front ⟨items, dataEnd, [], [], ⟨0, 0, 0⟩⟩ := by
    show (dataWritten options w).writable ++ (writeDataEnd dataEnd _).1.buffer = _
    rw [hbuffer, h.buffer, h.writable, Item.allBytes_nil, List.nil_append, List.append_assoc]
    rfl
  have hsummed : Summed (Parts.front B.front ⟨items, dataEnd, [], [], ⟨0, 0, 0⟩⟩)
      { writer := McapWriter.flush { dataWritten options w with
          recordWriter := (writeDataEnd dataEnd (dataWritten options w).recordWriter).1 }
        summaryCrc := crc32Init
        summaryOffsets := [] } [] [] :=
    ⟨⟨[], rfl, by rw [recordBytes_nil, List.append_nil]; exact hwritable, rfl⟩, Sized.reset,
      buffer_reset, rfl⟩
  obtain ⟨offsets, footer, hended, hfinish⟩ := finish_spec options (groups_spec options hsummed)
  refine ⟨⟨items, dataEnd, _, offsets, footer⟩, ?_, hended, rfl, rfl, rfl⟩
  rw [hend, ← hfinish]
  unfold McapWriter.position
  rw [hwritable]

end

end Ts
end Mcap

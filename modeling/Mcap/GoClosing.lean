import Mcap.GoJournal

/-! # How the Go writer closes a file

`Close` flushes the open chunk, writes the end of the data section and then the summary section:
groups of records of one opcode, an offset record for each group, the footer and the magic.  Each
step only adds records behind what is there; `Group` lists them.

The checksum of the sink is reset behind the data section.  `WriteSizer.since before bytes` is a
sink that holds `before` and then `bytes`, and has hashed `bytes` only.
-/
namespace Mcap
namespace Go

/-! ## Sinks that were reset -/

namespace WriteSizer

/-- A sink that holds `before ++ bytes`, and has hashed `bytes`. -/
def since (calculateCRC : Bool) (before bytes : Bytes) : WriteSizer :=
  ⟨before ++ bytes, if calculateCRC then some ⟨bytes⟩ else none, (before ++ bytes).length⟩

variable {calculateCRC : Bool} {before bytes : Bytes}

theorem holding_eq (calculateCRC : Bool) (bytes : Bytes) :
    holding calculateCRC bytes = since calculateCRC [] bytes := rfl

@[simp] theorem write_since (p : Bytes) :
    (since calculateCRC before bytes).write p = since calculateCRC before (bytes ++ p) := by
  cases calculateCRC <;> simp [since, write, Hasher.update, Nat.add_assoc]

@[simp] theorem resetCRC_since : (since calculateCRC before bytes).resetCRC =
    since calculateCRC (before ++ bytes) [] := by
  cases calculateCRC <;> simp [since, resetCRC, Hasher.new]

@[simp] theorem checksum_since : (since calculateCRC before bytes).checksum =
    (hashed calculateCRC bytes).finalize := by
  cases calculateCRC with
  | false => exact (show (0 : UInt32) = crc32 [] by decide)
  | true => rfl

@[simp] theorem size_since : (since calculateCRC before bytes).size = before.length + bytes.length := by
  simp [since]

@[simp] theorem out_since : (since calculateCRC before bytes).out = before ++ bytes := rfl

end WriteSizer

/-! ## Groups of summary records -/

/-- A group of the summary section: its opcode, and its records. -/
abbrev Group := UInt8 × List (UInt8 × Bytes)

/-- The group, if it is to be written. -/
def groupIf (present : Bool) (groupOpcode : UInt8) (records : List (UInt8 × Bytes)) : List Group :=
  if present then [(groupOpcode, records)] else []

/-- The records of groups, one group after the other. -/
def groupRecords (groups : List Group) : List (UInt8 × Bytes) := groups.flatMap Prod.snd

/-- The offset records of groups, the first of which starts at `pos`. -/
def groupOffsets : Nat → List Group → List SummaryOffset
  | _, [] => []
  | pos, g :: groups =>
      { groupOpcode := g.1, groupStart := .ofNat pos, groupLength := .ofNat (frames g.2).length } ::
        groupOffsets (pos + (frames g.2).length) groups

@[simp] theorem groupRecords_append (groups groups' : List Group) :
    groupRecords (groups ++ groups') = groupRecords groups ++ groupRecords groups' :=
  List.flatMap_append

theorem groupOffsets_append (pos : Nat) (groups groups' : List Group) :
    groupOffsets pos (groups ++ groups') = groupOffsets pos groups ++
      groupOffsets (pos + (frames (groupRecords groups)).length) groups' := by
  induction groups generalizing pos with
  | nil => rfl
  | cons g groups ih =>
    have hlen : (frames (groupRecords (g :: groups))).length =
        (frames g.2).length + (frames (groupRecords groups)).length := by
      rw [groupRecords, List.flatMap_cons, frames_append, List.length_append]
      rfl
    rw [List.cons_append, groupOffsets, ih, groupOffsets, hlen, Nat.add_assoc]
    rfl

namespace Writer
variable {κ : Type} {w : Writer κ}

/-- The writer once records have been added to the file. -/
def adding (w : Writer κ) (recs : List (UInt8 × Bytes)) : Writer κ :=
  { w with w := w.w.write (frames recs) }

theorem adding_nil (w : Writer κ) : w.adding [] = w := by
  simp [adding]

theorem adding_adding (w : Writer κ) (recs recs' : List (UInt8 × Bytes)) :
    (w.adding recs).adding recs' = w.adding (recs ++ recs') := by
  simp [adding]

theorem writeRecord_adding (w : Writer κ) (opcode : UInt8) (data : Bytes) :
    w.writeRecord opcode data = w.adding [(opcode, data)] := by
  rw [writeRecord_eq, adding, frames_cons, frames_nil, List.append_nil]

theorem foldl_adding {α : Type} {write : Writer κ → α → Writer κ} (record : α → UInt8 × Bytes)
    (h : ∀ recs x, write (w.adding recs) x = (w.adding recs).adding [record x])
    (xs : List α) : xs.foldl write w = w.adding (xs.map record) := by
  suffices hgen : ∀ recs, xs.foldl write (w.adding recs) = w.adding (recs ++ xs.map record) by
    have hnil := hgen []
    rwa [adding_nil] at hnil
  induction xs with
  | nil =>
    intro recs
    rw [List.map_nil, List.append_nil]
    rfl
  | cons x xs ih =>
    intro recs
    rw [List.foldl_cons, h, adding_adding, ih, List.map_cons, List.append_assoc]
    rfl

theorem writeGroup_eq (w : Writer κ) (groups : List Group) {pos : Nat} (hpos : w.w.size = pos)
    (present : Bool) (groupOpcode : UInt8) (records : List (UInt8 × Bytes))
    (write : Writer κ → Except Error (Writer κ))
    (hwrite : present = true → write (w.adding (groupRecords groups)) =
      .ok ((w.adding (groupRecords groups)).adding records)) :
    writeGroup present groupOpcode write
        (w.adding (groupRecords groups), groupOffsets pos groups) =
      .ok (w.adding (groupRecords (groups ++ groupIf present groupOpcode records)),
        groupOffsets pos (groups ++ groupIf present groupOpcode records)) := by
  unfold writeGroup groupIf
  cases hp : present with
  | false => simp
  | true =>
    have hsize : ∀ recs : List (UInt8 × Bytes), (w.adding recs).w.size = pos + (frames recs).length :=
      fun recs => by rw [← hpos]; rfl
    simp only [if_true, hwrite hp, adding_adding]
    simp only [bind, Except.bind, pure, Except.pure, hsize, groupRecords_append,
      groupOffsets_append, frames_append, List.length_append]
    have hsub : pos + ((frames (groupRecords groups)).length + (frames records).length) -
        (pos + (frames (groupRecords groups)).length) = (frames records).length := by omega
    rw [hsub]
    simp [groupRecords, groupOffsets]

/-! ### The groups of a writer -/

/-- The tables of a writer hold schemas and channels under their own ids, and the schema of each
channel. -/
structure Filed (w : Writer κ) : Prop where
  schemas : ∀ (id : UInt16) (s : Schema), w.schemas[id]? = some s → s.id = id ∧ s.id ≠ 0
  channels : ∀ (id : UInt16) (c : Channel), w.channels[id]? = some c →
    c.id = id ∧ (c.schemaID ≠ 0 → w.schemas.contains c.schemaID = true)

/-- The schema records of the summary section. -/
def schemaRecords (w : Writer κ) : List (UInt8 × Bytes) :=
  w.schemaIDs.filterMap fun id => w.schemas[id]?.map fun s => (op.SCHEMA, s.body)

/-- The channel records of the summary section. -/
def channelRecords (w : Writer κ) : List (UInt8 × Bytes) :=
  w.channelIDs.filterMap fun id => w.channels[id]?.map fun c => (op.CHANNEL, c.body)

/-- **The groups of the summary section.** -/
def groups (w : Writer κ) : List Group :=
  groupIf (!w.opts.skipRepeatedSchemas && 0 < w.schemas.size) op.SCHEMA w.schemaRecords ++
    groupIf (!w.opts.skipRepeatedChannelInfos && 0 < w.channels.size) op.CHANNEL
      w.channelRecords ++
    groupIf (!w.opts.skipStatistics) op.STATISTICS
      [(op.STATISTICS, w.statistics.body w.channelIDs)] ++
    groupIf (!w.opts.skipChunkIndex && !w.chunkIndexes.isEmpty) op.CHUNK_INDEX
      (w.chunkIndexes.map fun idx => (op.CHUNK_INDEX, idx.body w.channelIDs)) ++
    groupIf (!w.opts.skipAttachmentIndex && !w.attachmentIndexes.isEmpty) op.ATTACHMENT_INDEX
      (w.attachmentIndexes.map fun idx => (op.ATTACHMENT_INDEX, idx.body)) ++
    groupIf (!w.opts.skipMetadataIndex && !w.metadataIndexes.isEmpty) op.METADATA_INDEX
      (w.metadataIndexes.map fun idx => (op.METADATA_INDEX, idx.body))

/-- The offset records of the summary section, if it starts at `pos`. -/
def offsetRecords (w : Writer κ) (pos : Nat) : List (UInt8 × Bytes) :=
  if w.opts.skipSummaryOffsets then []
  else (groupOffsets pos w.groups).map fun s => (op.SUMMARY_OFFSET, s.body)

variable [ResettableWriteCloser κ]

theorem writeData_closed (h : w.closed = true) (opcode : UInt8) (data : Bytes) :
    w.writeData opcode data = .ok (w.adding [(opcode, data)]) := by
  unfold writeData
  rw [h, Bool.not_true, Bool.and_false, if_neg Bool.false_ne_true, writeRecord_adding]

theorem writeSchema_closed (h : w.closed = true) {s : Schema} (hid : s.id ≠ 0)
    (hs : w.schemas.contains s.id = true) :
    w.writeSchema s = .ok (w.adding [(op.SCHEMA, s.body)]) := by
  unfold writeSchema
  rw [if_neg hid]
  show (w.writeData op.SCHEMA s.body >>= fun w => pure (w.addSchema s)) = _
  rw [writeData_closed h]
  show Except.ok ((w.adding _).addSchema s) = _
  rw [addSchema, if_pos (show (w.adding _).schemas.contains s.id = true from hs)]

theorem writeChannel_closed (h : w.closed = true) {c : Channel}
    (hschema : c.schemaID ≠ 0 → w.schemas.contains c.schemaID = true)
    (hc : w.channels.contains c.id = true) :
    w.writeChannel c = .ok (w.adding [(op.CHANNEL, c.body)]) := by
  unfold writeChannel
  have hknown : ¬ (0 < c.schemaID ∧ ¬ w.schemas.contains c.schemaID = true) := by
    rintro ⟨hpos, hcon⟩
    exact hcon (hschema (UInt16.pos_iff_ne_zero.mp hpos))
  rw [if_neg hknown]
  show (w.writeData op.CHANNEL c.body >>= fun w => pure (w.addChannel c)) = _
  rw [writeData_closed h]
  show Except.ok ((w.adding _).addChannel c) = _
  rw [addChannel, if_pos (show (w.adding _).channels.contains c.id = true from hc)]

omit [ResettableWriteCloser κ] in
theorem foldlM_adding {α : Type} (find : UInt16 → Option α)
    (write : Writer κ → α → Except Error (Writer κ)) (record : α → UInt8 × Bytes)
    (h : ∀ recs id x, find id = some x →
      write (w.adding recs) x = .ok ((w.adding recs).adding [record x])) (ids : List UInt16)
    (recs : List (UInt8 × Bytes)) :
    ids.foldlM (writeKnown find write) (w.adding recs) =
      .ok (w.adding (recs ++ ids.filterMap fun id => (find id).map record)) := by
  induction ids generalizing recs with
  | nil =>
    rw [List.filterMap_nil, List.append_nil]
    rfl
  | cons id ids ih =>
    rw [List.foldlM_cons]
    cases hfind : find id with
    | none =>
      have hstep : writeKnown find write (w.adding recs) id = .ok (w.adding recs) := by
        rw [writeKnown, hfind]
      rw [List.filterMap_cons_none (by rw [hfind]; rfl), hstep]
      exact ih recs
    | some x =>
      have hstep : writeKnown find write (w.adding recs) id =
          .ok (w.adding (recs ++ [record x])) := by
        rw [writeKnown, hfind]
        exact (h recs id x hfind).trans (by rw [adding_adding])
      rw [List.filterMap_cons_some (by rw [hfind]; rfl), hstep]
      show ids.foldlM _ (w.adding (recs ++ [record x])) = _
      rw [ih, List.append_assoc]
      rfl

theorem writeSchemas_closed (h : w.closed = true) (hw : w.Filed) (recs : List (UInt8 × Bytes)) :
    writeSchemas (w.adding recs) = .ok ((w.adding recs).adding w.schemaRecords) := by
  rw [adding_adding]
  refine foldlM_adding (fun id => w.schemas[id]?)
    (fun (w' : Writer κ) s => context "failed to write schema" (w'.writeSchema s))
    (fun s => (op.SCHEMA, s.body)) ?_ w.schemaIDs recs
  intro recs id s hs
  obtain ⟨hid, hne⟩ := hw.schemas id s hs
  have hcontains : (w.adding recs).schemas.contains s.id = true :=
    (BTreeMap.contains_iff w.schemas s.id).mpr ⟨s, by rw [hid]; exact hs⟩
  show context _ ((w.adding recs).writeSchema s) = _
  rw [writeSchema_closed (show (w.adding recs).closed = true from h) hne hcontains]
  rfl

theorem writeChannels_closed (h : w.closed = true) (hw : w.Filed) (recs : List (UInt8 × Bytes)) :
    writeChannels (w.adding recs) = .ok ((w.adding recs).adding w.channelRecords) := by
  rw [adding_adding]
  refine foldlM_adding (fun id => w.channels[id]?)
    (fun (w' : Writer κ) c => context "failed to write channel info" (w'.writeChannel c))
    (fun c => (op.CHANNEL, c.body)) ?_ w.channelIDs recs
  intro recs id c hc
  obtain ⟨hid, hschema⟩ := hw.channels id c hc
  have hcontains : (w.adding recs).channels.contains c.id = true :=
    (BTreeMap.contains_iff w.channels c.id).mpr ⟨c, by rw [hid]; exact hc⟩
  show context _ ((w.adding recs).writeChannel c) = _
  rw [writeChannel_closed (show (w.adding recs).closed = true from h) hschema hcontains]
  rfl

/-- **The summary section** of a closed writer. -/
theorem writeSummarySection_closed (h : w.closed = true) (hw : w.Filed) :
    w.writeSummarySection =
      .ok (w.adding (groupRecords w.groups), groupOffsets w.w.size w.groups) := by
  unfold writeSummarySection
  have h₀ : (w, ([] : List SummaryOffset)) =
      (w.adding (groupRecords []), groupOffsets w.w.size []) := by
    rw [groupRecords, List.flatMap_nil, adding_nil]
    rfl
  have h₁ := writeGroup_eq w [] rfl (!w.opts.skipRepeatedSchemas && 0 < w.schemas.size) op.SCHEMA
    w.schemaRecords writeSchemas fun _ => writeSchemas_closed h hw _
  rw [h₀, h₁]
  simp only [bind, Except.bind]
  have h₂ := fun groups => writeGroup_eq w groups rfl
    (!w.opts.skipRepeatedChannelInfos && 0 < w.channels.size) op.CHANNEL w.channelRecords
    writeChannels fun _ => writeChannels_closed h hw _
  rw [h₂]
  simp only
  have h₃ := fun groups => writeGroup_eq w groups rfl
    (!w.opts.skipStatistics) op.STATISTICS
    [(op.STATISTICS, w.statistics.body w.channelIDs)]
    (fun w => .ok (w.writeStatistics w.statistics)) (by
      intro hp
      have hskip : w.opts.skipStatistics = false := by simpa using hp
      rw [writeStatistics, if_neg (by
        show ¬ w.opts.skipStatistics = true
        rw [hskip]
        exact Bool.false_ne_true), writeRecord_adding]
      rfl)
  rw [h₃]
  simp only
  have h₄ := fun groups => writeGroup_eq w groups rfl
    (!w.opts.skipChunkIndex && !w.chunkIndexes.isEmpty)
    op.CHUNK_INDEX
    (w.chunkIndexes.map fun idx => (op.CHUNK_INDEX, idx.body w.channelIDs))
    (fun w => .ok (w.chunkIndexes.foldl writeChunkIndex w)) (by
      intro _
      rw [foldl_adding (fun idx : ChunkIndex => (op.CHUNK_INDEX, idx.body w.channelIDs))
        fun recs idx => by rw [writeChunkIndex, writeRecord_adding]; rfl]
      rfl)
  rw [h₄]
  simp only
  have h₅ := fun groups => writeGroup_eq w groups rfl
    (!w.opts.skipAttachmentIndex && !w.attachmentIndexes.isEmpty)
    op.ATTACHMENT_INDEX
    (w.attachmentIndexes.map fun idx => (op.ATTACHMENT_INDEX, idx.body))
    (fun w => .ok (w.attachmentIndexes.foldl writeAttachmentIndex w)) (by
      intro hp
      have hskip : w.opts.skipAttachmentIndex = false := (by simpa using hp : _ ∧ _).1
      rw [foldl_adding (fun idx : AttachmentIndex => (op.ATTACHMENT_INDEX, idx.body))
        fun recs idx => by
          rw [writeAttachmentIndex, if_neg (by
            show ¬ w.opts.skipAttachmentIndex = true
            rw [hskip]
            exact Bool.false_ne_true), writeRecord_adding]]
      rfl)
  rw [h₅]
  simp only
  have h₆ := fun groups => writeGroup_eq w groups rfl
    (!w.opts.skipMetadataIndex && !w.metadataIndexes.isEmpty)
    op.METADATA_INDEX
    (w.metadataIndexes.map fun idx => (op.METADATA_INDEX, idx.body))
    (fun w => .ok (w.metadataIndexes.foldl writeMetadataIndex w)) (by
      intro _
      rw [foldl_adding (fun idx : MetadataIndex => (op.METADATA_INDEX, idx.body))
        fun recs idx => by rw [writeMetadataIndex, writeRecord_adding]]
      rfl)
  rw [h₆]
  rfl

end Writer

/-! ## The whole file -/

section
variable {κ : Type} (o : WriterOptions κ) (header : Header) (es : List Entry)

/-- The record at the end of the data section. -/
def dataEndRecord : UInt8 × Bytes :=
  (op.DATA_END, DataEnd.body ⟨(hashed o.includeCRC (dataBytes o header es)).finalize⟩)

/-- The file up to the summary section. -/
def dataSection : Bytes := dataBytes o header es ++ frames [dataEndRecord o header es]

/-- The footer up to its checksum, if the summary section of `w` starts at `pos`. -/
def footerFields (w : Writer κ) (pos : Nat) : Bytes :=
  u64 (.ofNat (if w.groups.isEmpty then 0 else pos)) ++
    u64 (.ofNat (if w.opts.skipSummaryOffsets then 0
      else pos + (frames (groupRecords w.groups)).length))

/-- The summary section of `w`. -/
def summarySection (w : Writer κ) (pos : Nat) : Bytes :=
  frames (groupRecords w.groups ++ w.offsetRecords pos)

/-- The footer of `w`. -/
def footerRecord (w : Writer κ) (pos : Nat) : UInt8 × Bytes :=
  (op.FOOTER, footerFields w pos ++ u32 (hashed w.opts.includeCRC (summarySection w pos ++
    (op.FOOTER :: (le 8 (8 + 8 + 4) ++ footerFields w pos)))).finalize)

/-- **The file** of a writer `w` whose open chunk is flushed. -/
def fileBytes (w : Writer κ) : Bytes :=
  dataSection o header es ++ summarySection w (dataSection o header es).length ++
    frames [footerRecord w (dataSection o header es).length] ++ MAGIC

end

section
variable {κ : Type} {o : WriterOptions κ} {header : Header} {es : List Entry} {w w' : Writer κ}

theorem foldl_writeSummaryOffset (w : Writer κ) (offsets : List SummaryOffset)
    (h : w.opts.skipSummaryOffsets = false) : offsets.foldl Writer.writeSummaryOffset w =
      w.adding (offsets.map fun s => (op.SUMMARY_OFFSET, s.body)) := by
  refine Writer.foldl_adding (fun s => (op.SUMMARY_OFFSET, s.body)) (fun recs s => ?_) offsets
  rw [Writer.writeSummaryOffset, if_neg (by
    show ¬ w.opts.skipSummaryOffsets = true
    rw [h]
    exact Bool.false_ne_true), Writer.writeRecord_adding]

theorem isEmpty_groupOffsets (pos : Nat) (groups : List Group) :
    (groupOffsets pos groups).isEmpty = groups.isEmpty := by
  cases groups <;> rfl

theorem endData_eq (hsizer : w.w = .holding o.includeCRC (dataBytes o header es)) : w.endData =
      { w with closed := true, w := .since o.includeCRC (dataSection o header es) [] } := by
  have hcrc : w.w.checksum = (hashed o.includeCRC (dataBytes o header es)).finalize := by
    rw [hsizer, WriteSizer.holding_eq, WriteSizer.checksum_since]
  simp only [Writer.endData, Writer.writeDataEnd, Writer.writeRecord_eq, hcrc]
  rw [hsizer, WriteSizer.holding_eq, WriteSizer.write_since, WriteSizer.resetCRC_since]
  simp [dataSection, dataEndRecord]

theorem endFile_out {calculateCRC : Bool} {before bytes : Bytes}
    (h : w.w = .since calculateCRC before bytes) (a b : Nat) : (w.endFile a b).w.out =
      before ++ bytes ++ frame op.FOOTER ((u64 (.ofNat a) ++ u64 (.ofNat b)) ++
        u32 (hashed calculateCRC (bytes ++ (op.FOOTER :: (le 8 (8 + 8 + 4) ++
          (u64 (.ofNat a) ++ u64 (.ofNat b)))))).finalize) ++ MAGIC := by
  unfold Writer.endFile Writer.writeFooter
  simp only [h, WriteSizer.write_since, WriteSizer.checksum_since, WriteSizer.out_since]
  simp [frame, List.append_assoc]

/-- **What `Close` makes of a writer** whose open chunk is flushed. -/
theorem closeFlushed_out [ResettableWriteCloser κ] (ho : w.opts = o)
    (hsizer : w.w = .holding o.includeCRC (dataBytes o header es)) (hfiled : w.Filed)
    (h : w.closeFlushed = .ok w') : w'.w.out = fileBytes o header es w := by
  obtain ⟨w₁, hw₁⟩ : ∃ w₁ : Writer κ, w₁ =
      { w with closed := true, w := .since o.includeCRC (dataSection o header es) [] } := ⟨_, rfl⟩
  have hstart : w.endData = w₁ := (endData_eq hsizer).trans hw₁.symm
  have hsection := Writer.writeSummarySection_closed (w := w₁) (by rw [hw₁])
    (by rw [hw₁]; exact ⟨hfiled.schemas, hfiled.channels⟩)
  have hgroups : w₁.groups = w.groups := by rw [hw₁]; rfl
  have hopts : w₁.opts = w.opts := by rw [hw₁]
  have hsize : w₁.w.size = (dataSection o header es).length := by rw [hw₁]; simp
  have hsince : ∀ recs, (w₁.adding recs).w =
      .since o.includeCRC (dataSection o header es) (frames recs) := by
    intro recs
    rw [Writer.adding, hw₁, WriteSizer.write_since, List.nil_append]
  unfold Writer.closeFlushed at h
  simp only [hstart] at h
  rw [hsection] at h
  cases h
  have hskip : ∀ recs, (w₁.adding recs).opts.skipSummaryOffsets = w.opts.skipSummaryOffsets :=
    fun recs => by rw [← hopts]; rfl
  simp only [hsize, hgroups, isEmpty_groupOffsets, hskip]
  have hpos : (w₁.adding (groupRecords w.groups)).w.size =
      (dataSection o header es).length + (frames (groupRecords w.groups)).length := by
    rw [hsince, WriteSizer.size_since]
  have hoffsets : (if w.opts.skipSummaryOffsets then w₁.adding (groupRecords w.groups) else
      (groupOffsets (dataSection o header es).length w.groups).foldl Writer.writeSummaryOffset
        (w₁.adding (groupRecords w.groups))) =
      w₁.adding (groupRecords w.groups ++ w.offsetRecords (dataSection o header es).length) := by
    unfold Writer.offsetRecords
    split
    · rw [List.append_nil]
    · rename_i hoff
      rw [foldl_writeSummaryOffset _ _ (by rw [hskip]; simpa using hoff), Writer.adding_adding]
  rw [hoffsets, hpos, endFile_out (hsince _), fileBytes, footerRecord, ho]
  simp [summarySection, footerFields, ho]

end

end Go
end Mcap

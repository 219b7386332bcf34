import Mcap.JournalRuns

/-! # The file a writer leaves behind

`finish` writes the end of the data section, the groups of the summary section, their
offsets, the footer and the magic.  `fileBytes` is the whole file as a function of the
entries of the journal and the summary, and `finish_writes` says that a `finish` that
succeeds leaves it on the stream.
-/
namespace Mcap

/-! ## The summary section -/

/-- A group of the summary section: its opcode and its records. -/
abbrev Group := UInt8 × List Record

/-- A group that is written if it is enabled. -/
def groupIf (enabled : Bool) (opcode : UInt8) (records : List Record) : List Group :=
  if enabled then [(opcode, records)] else []

/-- The group of the statistics. -/
def statisticsGroup (enabled : Bool) : Option Statistics → List Group
  | some stats => groupIf enabled op.STATISTICS [.statistics stats]
  | none => []

/-- The records of groups. -/
def groupRecords (groups : List Group) : List Record := groups.flatMap Prod.snd

theorem content_groupRecords_cons (g : Group) (gs : List Group) :
    content (groupRecords (g :: gs)) = content g.2 ++ content (groupRecords gs) := by
  rw [groupRecords, List.flatMap_cons, content_append]
  rfl

theorem content_groupRecords_append (gs : List Group) (g : Group) :
    content (groupRecords (gs ++ [g])) = content (groupRecords gs) ++ content g.2 := by
  rw [groupRecords, List.flatMap_append, content_append, List.flatMap_singleton]
  rfl

/-- The offsets of groups, if the first is at `pos`. -/
def groupOffsets : Nat → List Group → List SummaryOffset
  | _, [] => []
  | pos, g :: gs =>
      { groupOpcode := g.1, groupStart := .ofNat pos, groupLength := .ofNat (content g.2).length } ::
        groupOffsets (pos + (content g.2).length) gs

theorem groupOffsets_append (pos : Nat) (gs : List Group) (g : Group) :
    groupOffsets pos (gs ++ [g]) = groupOffsets pos gs ++
      [{ groupOpcode := g.1
         groupStart := .ofNat (pos + (content (groupRecords gs)).length)
         groupLength := .ofNat (content g.2).length }] := by
  induction gs generalizing pos with
  | nil => rfl
  | cons g' gs ih =>
    rw [List.cons_append, groupOffsets, ih, groupOffsets, content_groupRecords_cons,
      List.length_append, ← Nat.add_assoc]
    rfl

section
variable (o : WriteOptions)

/-- The groups of the summary section. -/
def summaryGroups (order : HashOrder) (summary : Summary) : List Group :=
  groupIf (o.repeatSchemas && !((order.schemas summary.schemas).map Summary.schemaRecord).isEmpty)
      op.SCHEMA ((order.schemas summary.schemas).map Summary.schemaRecord) ++
    groupIf
      (o.repeatChannels && !((order.channels summary.channels).map Summary.channelRecord).isEmpty)
      op.CHANNEL ((order.channels summary.channels).map Summary.channelRecord) ++
    statisticsGroup o.emitStatistics summary.stats ++
    groupIf (o.emitChunkIndexes && !summary.chunkIndexes.isEmpty) op.CHUNK_INDEX
      (summary.chunkIndexes.map .chunkIndex) ++
    groupIf (o.emitAttachmentIndexes && !summary.attachmentIndexes.isEmpty) op.ATTACHMENT_INDEX
      (summary.attachmentIndexes.map .attachmentIndex) ++
    groupIf (o.emitMetadataIndexes && !summary.metadataIndexes.isEmpty) op.METADATA_INDEX
      (summary.metadataIndexes.map .metadataIndex)

/-- The summary offsets, if the section starts at `pos`. -/
def offsetRecords (pos : Nat) (groups : List Group) : List Record :=
  if o.emitSummaryOffsets then (groupOffsets pos groups).map .summaryOffset else []

/-- The records of the summary section, if it starts at `pos`. -/
def summaryRecords (pos : Nat) (groups : List Group) : List Record :=
  groupRecords groups ++ offsetRecords o pos groups

/-- The footer but for its CRC, if the summary section starts at `pos`. -/
def footerFields (pos : Nat) (groups : List Group) : Bytes :=
  u64 (.ofNat (if pos + (content (groupRecords groups)).length > pos then pos else 0)) ++
    u64 (.ofNat (if o.emitSummaryOffsets then pos + (content (groupRecords groups)).length else 0))

/-- The footer, if the summary section starts at `pos`. -/
def footerOf (pos : Nat) (groups : List Group) : Footer where
  summaryStart := .ofNat (if pos + (content (groupRecords groups)).length > pos then pos else 0)
  summaryOffsetStart :=
    .ofNat (if o.emitSummaryOffsets then pos + (content (groupRecords groups)).length else 0)
  summaryCrc :=
    if o.calculateSummarySectionCrc then
      crc32 (content (summaryRecords o pos groups) ++
        (opAndLen op.FOOTER (8 + 8 + 4) ++ footerFields o pos groups))
    else 0

/-- The record at the end of the data section. -/
def dataEndOf (es : List Entry) : Record :=
  .dataEnd { dataSectionCrc := ((dataHasher o es).map Hasher.finalize).getD 0 }

/-- **The whole file.** -/
def fileBytes (es : List Entry) (groups : List Group) : Bytes :=
  dataBytes o es ++ (dataEndOf o es).frame ++
    content (summaryRecords o (dataBytes o es ++ (dataEndOf o es).frame).length groups) ++
    (Record.footer (footerOf o (dataBytes o es ++ (dataEndOf o es).frame).length groups)).frame ++ MAGIC

end

/-! ## Writing it -/

/-- `write_record` takes the record. -/
def Record.Writable (r : Record) : Prop := r.written = some r.frame

namespace SummaryWriter

theorem writeRecords_onTape {records : List Record} (hr : ∀ r ∈ records, r.Writable)
    {c : CountingCrcWriter Stream} {bytes : Bytes} (hc : c.OnTape bytes) :
    writeRecords records c = .ok (c.push bytes (content records)) := by
  induction records generalizing c bytes with
  | nil =>
    rw [content_nil, CountingCrcWriter.push_nil hc]
    rfl
  | cons r rs ih =>
    have hrec := writeRecord_of_writeAll (hr r List.mem_cons_self) (hc.writeAll r.frame)
    rw [writeRecords, hrec, Res.ok_bind, ih (fun r' hr' => hr r' (List.mem_cons_of_mem _ hr'))
      (CountingCrcWriter.onTape_push ..), CountingCrcWriter.push_push]
    rfl

/-- **The groups have been written** from a writer `c` whose tape held `base`. -/
structure Wrote (c : CountingCrcWriter Stream) (base : Bytes) (groups : List Group)
    (s : SummaryWriter Stream) : Prop where
  ccw : s.ccw = c.push base (content (groupRecords groups))
  summaryEnd : s.summaryEnd = base.length + (content (groupRecords groups)).length
  offsets : s.offsets = groupOffsets base.length groups

variable {c : CountingCrcWriter Stream} {base : Bytes} {groups : List Group}
  {s : SummaryWriter Stream}

theorem Wrote.onTape (h : Wrote c base groups s) :
    s.ccw.OnTape (base ++ content (groupRecords groups)) := by
  rw [h.ccw]
  exact CountingCrcWriter.onTape_push ..

theorem Wrote.writeGroup (h : Wrote c base groups s) (enabled : Bool) (opcode : UInt8)
    {records : List Record} (hr : ∀ r ∈ records, r.Writable) :
    ∃ s', s.writeGroup enabled opcode records = .ok s' ∧
      Wrote c base (groups ++ groupIf enabled opcode records) s' := by
  cases enabled with
  | false => exact ⟨s, rfl, by rw [groupIf, if_neg Bool.false_ne_true, List.append_nil]; exact h⟩
  | true =>
    have hw := writeRecords_onTape hr h.onTape
    have hpos := (CountingCrcWriter.onTape_push s.ccw (base ++ content (groupRecords groups))
      (content records)).streamPosition
    rw [SummaryWriter.writeGroup, if_pos rfl, hw]
    simp only [Res.ok_bind]
    rw [position_of_streamPosition hpos]
    refine ⟨_, rfl, ?_, ?_, ?_⟩
    · simp only [h.ccw, CountingCrcWriter.push_push, groupIf, if_true, content_groupRecords_append]
    · simp only [groupIf, if_true, content_groupRecords_append, List.length_append, Nat.add_assoc]
    · simp only [groupIf, if_true, groupOffsets_append, h.offsets, h.summaryEnd, List.length_append,
        Nat.add_sub_cancel_left]

theorem Wrote.writeStatistics (h : Wrote c base groups s) {enabled : Bool}
    {stats : Option Statistics} (hstats : enabled = true → stats ≠ none) :
    ∃ s', s.writeStatistics enabled stats = .ok s' ∧
      Wrote c base (groups ++ statisticsGroup enabled stats) s' := by
  cases stats with
  | none =>
    have hoff : enabled = false := Bool.eq_false_iff.mpr fun hon => hstats hon rfl
    refine ⟨s, ?_, ?_⟩
    · rw [SummaryWriter.writeStatistics, hoff]
      rfl
    · rw [statisticsGroup, List.append_nil]
      exact h
  | some stats =>
    refine h.writeGroup enabled op.STATISTICS ?_
    intro r hr
    cases List.mem_singleton.mp hr
    rfl

end SummaryWriter

section
variable {c : CountingCrcWriter Stream} {base : Bytes} {o : WriteOptions} {order : HashOrder}
  {summary : Summary}

theorem writable_map {α : Type} {f : α → Record} (hf : ∀ a, (f a).Writable) (l : List α) :
    ∀ r ∈ l.map f, r.Writable := by
  intro r hr
  obtain ⟨a, -, rfl⟩ := List.mem_map.mp hr
  exact hf a

/-- **The groups of the summary section are written.** -/
theorem writeGroups_wrote (hstats : o.emitStatistics = true → summary.stats ≠ none)
    {s : SummaryWriter Stream} (h : SummaryWriter.Wrote c base [] s) :
    ∃ s', writeGroups order summary o s = .ok s' ∧
      SummaryWriter.Wrote c base (summaryGroups o order summary) s' := by
  have hschema : ∀ e, (Summary.schemaRecord e).Writable :=
    fun e => congrArg some (Record.written_eq_some rfl)
  have hchannel : ∀ e, (Summary.channelRecord e).Writable := fun e => rfl
  have hci : ∀ i, (Record.chunkIndex i).Writable := fun i => rfl
  have hai : ∀ i, (Record.attachmentIndex i).Writable := fun i => rfl
  have hmi : ∀ i, (Record.metadataIndex i).Writable := fun i => rfl
  obtain ⟨s₁, hw₁, h₁⟩ := h.writeGroup
    (o.repeatSchemas && !((order.schemas summary.schemas).map Summary.schemaRecord).isEmpty)
    op.SCHEMA (writable_map hschema (order.schemas summary.schemas))
  obtain ⟨s₂, hw₂, h₂⟩ := h₁.writeGroup
    (o.repeatChannels && !((order.channels summary.channels).map Summary.channelRecord).isEmpty)
    op.CHANNEL (writable_map hchannel (order.channels summary.channels))
  obtain ⟨s₃, hw₃, h₃⟩ := h₂.writeStatistics hstats
  obtain ⟨s₄, hw₄, h₄⟩ := h₃.writeGroup (o.emitChunkIndexes && !summary.chunkIndexes.isEmpty)
    op.CHUNK_INDEX (writable_map hci summary.chunkIndexes)
  obtain ⟨s₅, hw₅, h₅⟩ := h₄.writeGroup
    (o.emitAttachmentIndexes && !summary.attachmentIndexes.isEmpty) op.ATTACHMENT_INDEX
    (writable_map hai summary.attachmentIndexes)
  obtain ⟨s₆, hw₆, h₆⟩ := h₅.writeGroup
    (o.emitMetadataIndexes && !summary.metadataIndexes.isEmpty) op.METADATA_INDEX
    (writable_map hmi summary.metadataIndexes)
  refine ⟨s₆, ?_, ?_⟩
  · unfold writeGroups
    simp only [hw₁, hw₂, hw₃, hw₄, hw₅, hw₆, Res.ok_bind]
  · exact h₆

theorem writeOffsetsAndFooter_wrote {groups : List Group} {s : SummaryWriter Stream}
    (h : SummaryWriter.Wrote c base groups s) :
    writeOffsetsAndFooter base.length o s = .ok (c.push base
      (content (summaryRecords o base.length groups) ++
        (opAndLen op.FOOTER (8 + 8 + 4) ++ footerFields o base.length groups))) := by
  have hso : ∀ i, (Record.summaryOffset i).Writable := fun i => rfl
  have hoffsets : s.writeOffsets o.emitSummaryOffsets =
      .ok (c.push base (content (summaryRecords o base.length groups))) := by
    unfold SummaryWriter.writeOffsets
    split
    · rename_i hemit
      rw [SummaryWriter.writeRecords_onTape (writable_map hso s.offsets) h.onTape, h.ccw, CountingCrcWriter.push_push, ← content_append,
        h.offsets, summaryRecords, offsetRecords, if_pos hemit]
    · rename_i hemit
      rw [h.ccw, summaryRecords, offsetRecords, if_neg hemit, List.append_nil]
  unfold writeOffsetsAndFooter
  rw [hoffsets]
  simp only [Res.ok_bind]
  rw [write_of_writeAll ((CountingCrcWriter.onTape_push ..).writeAll _)]
  simp only [Res.ok_bind]
  rw [CountingCrcWriter.push_push, write_of_writeAll ((CountingCrcWriter.onTape_push ..).writeAll _),
    CountingCrcWriter.push_push, h.summaryEnd, List.append_assoc]
  rfl

/-- **The summary section, the footer and the magic are written.** -/
theorem writeSummaryAndFooterMagic_wrote (hstats : o.emitStatistics = true → summary.stats ≠ none)
    (base : Bytes) :
    writeSummaryAndFooterMagic order (Stream.tape base) summary o =
      .ok (Stream.tape (base ++ content (summaryRecords o base.length (summaryGroups o order summary))
        ++ (Record.footer (footerOf o base.length (summaryGroups o order summary))).frame ++ MAGIC)) := by
  have hnew : (CountingCrcWriter.new (Stream.tape base) o.calculateSummarySectionCrc).OnTape base := rfl
  have hstart : SummaryWriter.Wrote
      (CountingCrcWriter.new (Stream.tape base) o.calculateSummarySectionCrc) base []
      ⟨CountingCrcWriter.new (Stream.tape base) o.calculateSummarySectionCrc, base.length, []⟩ :=
    ⟨(CountingCrcWriter.push_nil hnew).symm, rfl, rfl⟩
  obtain ⟨s, hs, hwrote⟩ := @writeGroups_wrote _ base o order summary hstats _ hstart
  generalize hgroups : summaryGroups o order summary = groups at hwrote ⊢
  generalize hsection : content (summaryRecords o base.length groups) ++
    (opAndLen op.FOOTER (8 + 8 + 4) ++ footerFields o base.length groups) = section_
  have hcrc : (CountingCrcWriter.currentChecksum ((CountingCrcWriter.new (Stream.tape base)
      o.calculateSummarySectionCrc).push base section_)) = (footerOf o base.length groups).summaryCrc := by
    simp only [CountingCrcWriter.currentChecksum, CountingCrcWriter.push, CountingCrcWriter.account,
      CountingCrcWriter.new, footerOf, hsection]
    split <;> simp [Hasher.finalize, Hasher.update, Hasher.new]
  have hframe : base ++ section_ ++ u32 (footerOf o base.length groups).summaryCrc ++ MAGIC =
      base ++ content (summaryRecords o base.length groups) ++
        (Record.footer (footerOf o base.length groups)).frame ++ MAGIC := by
    rw [← hsection]
    simp only [Record.frame, frame_eq, Record.body, Record.opcode, Footer.bytes, footerFields,
      footerOf, List.append_assoc, List.length_append, length_u64, length_u32]
  unfold writeSummaryAndFooterMagic
  rw [position_of_streamPosition (Stream.streamPosition_tape base)]
  simp only [Res.ok_bind, hs, underCcw]
  rw [writeOffsetsAndFooter_wrote hwrote, hsection]
  simp only [Res.ok_bind, hcrc]
  rw [show ((CountingCrcWriter.new (Stream.tape base) o.calculateSummarySectionCrc).push base
    section_).inner = Stream.tape (base ++ section_) from rfl,
    write_of_writeAll (Stream.writeAll_tape _ _)]
  simp only [Res.ok_bind]
  rw [write_of_writeAll (Stream.writeAll_tape _ _), hframe]

end

/-! ## `finish` -/

/-- The summary of a writer with these schemas and channels. -/
def Writer.summaryWith {σ : Type} (w : Writer σ Stream) (schemas : BTreeMap UInt16 Schema)
    (channels : BTreeMap UInt16 Channel) : Summary where
  stats := some w.statistics
  channels
  schemas
  chunkIndexes := w.chunkIndexes
  attachmentIndexes := w.attachmentIndexes
  metadataIndexes := w.metadataIndexes

section
variable {σ : Type} [Encoders σ] {w w' : Writer σ Stream} {j : Journal} {order : HashOrder}
  {summary : Summary}

namespace Writer

omit [Encoders σ] in
theorem takeSummary_eq_ok (h : takeSummary w = (.ok summary, w')) :
    ∃ schemas channels, w.summarySchemas = some schemas ∧
      w.summaryChannels schemas = some channels ∧ summary = w.summaryWith schemas channels ∧
      w'.writer = w.writer ∧ w'.options = w.options := by
  rw [takeSummary, Exec.bind_ok (Exec.get_run w)] at h
  cases hs : w.summarySchemas with
  | none =>
    simp only [hs] at h
    cases h
  | some schemas =>
    cases hc : w.summaryChannels schemas with
    | none =>
      simp only [hs, hc] at h
      cases h
    | some channels =>
      simp only [hs, hc] at h
      cases h
      exact ⟨schemas, channels, rfl, hc, rfl, rfl, rfl⟩

theorem finish_open (h : Shows w j) (hrun : finish order w = (.ok summary, w')) : j.Open := by
  rw [finish, Exec.bind_ok (Exec.get_run w)] at hrun
  simp only [h.notFinished] at hrun
  rcases j.open_attachment_lost with ho | ⟨header, length, data, htail⟩ | hlost
  · exact ho
  · obtain ⟨es, tail⟩ := j
    subst htail
    rw [Exec.bind_err (finishChunk_refused h)] at hrun
    cases hrun
  · rw [Exec.bind_panic (finishChunk_panic (h.not_usable hlost))] at hrun
    cases hrun

theorem writeEnd_holds {c : CountingCrcWriter Stream} {o : WriteOptions} {es : List Entry}
    (hc : c.Holds o es) (hstats : summary.stats ≠ none) :
    writeEnd order summary o c = .ok ((), { c with
      inner := Stream.tape (fileBytes o es (summaryGroups o order summary)) }) := by
  have hcrc : c.currentChecksum = ((dataHasher o es).map Hasher.finalize).getD 0 := by
    rw [CountingCrcWriter.currentChecksum, hc.hasher]
  have hend : writeRecord c.inner (.dataEnd { dataSectionCrc := c.currentChecksum }) =
      .ok (Stream.tape (dataBytes o es ++ (dataEndOf o es).frame)) := by
    rw [hc.onTape, hcrc]
    exact writeRecord_of_writeAll rfl (Stream.writeAll_tape _ _)
  unfold writeEnd
  simp only [hend, Res.ok_bind]
  rw [writeSummaryAndFooterMagic_wrote fun _ => hstats]
  rfl

/-- **What `finish` leaves behind**: the open chunk is finished, the summary is that of the
writer, and the stream holds the whole file. -/
theorem finish_writes (h : Shows w j) (hrun : finish order w = (.ok summary, w')) :
    ∃ w₁ es schemas channels, finishChunk w = (.ok (), w₁) ∧ Extended w j [] w₁ ⟨es, .raw⟩ ∧
      w₁.summarySchemas = some schemas ∧ w₁.summaryChannels schemas = some channels ∧
      summary = w₁.summaryWith schemas channels ∧
      ∃ c, w'.writer = some (.raw c) ∧
        c.inner = Stream.tape (fileBytes w.options es (summaryGroups w.options order summary)) := by
  have ho := finish_open h hrun
  rw [finish, Exec.bind_ok (Exec.get_run w)] at hrun
  simp only [h.notFinished] at hrun
  obtain ⟨u, w₁, hfc, hrun⟩ := Exec.bind_eq_ok.mp hrun
  have hclosed := finishChunk_shows h ho
  rw [hfc] at hclosed
  obtain ⟨⟨es, tail⟩, hext, rfl⟩ := hclosed
  obtain ⟨summary', w₂, hts, hrun⟩ := Exec.bind_eq_ok.mp hrun
  obtain ⟨schemas, channels, hs, hch, rfl, hw₂, ho₂⟩ := takeSummary_eq_ok hts
  obtain ⟨c, hc, hholds⟩ := hext.shows_.raw
  have hopts : w₁.options = w.options := options_of_core hext.core
  rw [hopts] at hholds
  have hend : writeEnd order (w₁.summaryWith schemas channels) w.options c = _ :=
    writeEnd_holds hholds (Option.some_ne_none _)
  have hraw : onRaw (writeEnd order (w₁.summaryWith schemas channels) w.options)
      { w₂ with finishedSummary := some (w₁.summaryWith schemas channels) } =
      (.ok (), { w₂ with
        finishedSummary := some (w₁.summaryWith schemas channels)
        writer := some (.raw { c with
          inner := Stream.tape (fileBytes w.options es
            (summaryGroups w.options order (w₁.summaryWith schemas channels))) }) }) := by
    simp only [onRaw, hw₂, hc, hend]
  rw [Exec.bind_ok (Exec.modify_run _ _), Exec.bind_ok hraw] at hrun
  cases hrun
  exact ⟨w₁, es, schemas, channels, hfc, hext, hs, hch, rfl, _, rfl, rfl⟩

/-- The stream of the writer holds `bytes`. -/
def Produced (w : Writer σ Stream) (bytes : Bytes) : Prop :=
  ∃ c, w.writer = some (.raw c) ∧ c.inner = Stream.tape bytes

theorem Produced.unique {bytes bytes' : Bytes} (h : w.Produced bytes) (h' : w.Produced bytes') :
    bytes = bytes' := by
  obtain ⟨c, hc, hbytes⟩ := h
  obtain ⟨c', hc', hbytes'⟩ := h'
  rw [hc] at hc'
  cases hc'
  exact congrArg Stream.bytes (hbytes.symm.trans hbytes')

end Writer

/-- **The file of a session**, whose entries hold the records of its journal. -/
theorem Recorded.finish {K : Record → Prop} {o : WriteOptions} (h : Recorded K o w j)
    (hfin : Writer.finish order w = (.ok summary, w')) :
    ∃ w₁ es schemas channels, Writer.finishChunk w = (.ok (), w₁) ∧
      Recorded K o w₁ ⟨es, .raw⟩ ∧ es.flatMap Entry.flat = j.flat ∧ w₁.core = w.core ∧
      w₁.summarySchemas = some schemas ∧ w₁.summaryChannels schemas = some channels ∧
      summary = w₁.summaryWith schemas channels ∧
      w'.Produced (fileBytes o es (summaryGroups o order summary)) := by
  obtain ⟨rfl, hshows, hsound, hkept, hpending⟩ := h
  obtain ⟨w₁, es, schemas, channels, hfc, hext, hs, hch, hsum, hfile⟩ :=
    Writer.finish_writes hshows hfin
  have hflat : es.flatMap Entry.flat = j.flat := by
    have hf := hext.flat
    rwa [List.append_nil, Journal.flat, List.append_nil] at hf
  refine ⟨w₁, es, schemas, channels, hfc, ⟨Writer.options_of_core hext.core, hext.shows_,
    hsound.of_registry (Writer.registry_of_core hext.core) hext.shows_.placed, ?_,
    hext.isOpen.free.pending _⟩, hflat, hext.core, hs, hch, hsum, hfile⟩
  intro r hr
  rw [hext.flat, List.append_nil] at hr
  exact hkept r hr

end
end Mcap

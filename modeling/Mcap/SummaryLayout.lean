import Mcap.SummaryRoundTrip

/-! # The layout of the summary section

A finished file is the data section, the groups of the summary section, their offsets, the footer
and the magic.  `SummarySection` is such a file, cut at these places, and `SummarySection.Laid` says
what the format asks of it: a group has the records of one opcode, an offset names the place of its
group, and the footer the place and the checksum of the section.

The footer also has the place of the offsets, or 0 if there are none (`OffsetStart`).  The writer
puts the end of the groups there whenever it is to write offsets, whether there are any or not, so
that this holds if and only if it writes none by its options, or has something to summarize
(`summary_layout_iff`).
-/
namespace Mcap

/-! ## A file, cut at its summary section -/

/-- The parts of a finished file. -/
structure SummarySection where
  data : Bytes
  dataEnd : DataEnd
  groups : List Group
  offsets : List SummaryOffset
  footer : Footer

namespace SummarySection
variable (s : SummarySection)

/-- What comes before the summary section. -/
def front : Bytes := s.data ++ (Record.dataEnd s.dataEnd).frame

/-- The groups, one after the other. -/
def section_ : Bytes := content (groupRecords s.groups)

/-- The whole file. -/
def bytes : Bytes :=
  s.front ++ (s.section_ ++ content (s.offsets.map .summaryOffset)) ++
    (Record.footer s.footer).frame ++ MAGIC

/-- The offset names the group that comes behind `pre`. -/
structure Locates (pre : List Group) (g : Group) (offset : SummaryOffset) : Prop where
  opcode : offset.groupOpcode = g.1
  start : offset.groupStart.toNat = (s.front ++ content (groupRecords pre)).length
  range : (s.bytes.drop offset.groupStart.toNat).take offset.groupLength.toNat = content g.2

/-- **What the format asks of the summary section**, but for the place of the offsets. -/
structure Laid (o : WriteOptions) : Prop where
  grouped : ∀ g ∈ s.groups, g.2 ≠ [] ∧ ∀ r ∈ g.2, r.opcode = g.1
  distinct : (s.groups.map Prod.fst).Nodup
  noOffsets : o.emitSummaryOffsets = false → s.offsets = []
  oneOffset : o.emitSummaryOffsets = true → s.offsets.length = s.groups.length
  located : o.emitSummaryOffsets = true → ∀ pre g post, s.groups = pre ++ g :: post →
    ∃ offset, s.offsets[pre.length]? = some offset ∧ s.Locates pre g offset
  start : s.footer.summaryStart.toNat = if s.groups.isEmpty then 0 else s.front.length
  checksum : o.calculateSummarySectionCrc = true → ∃ covered,
    s.bytes = s.front ++ covered ++ u32 s.footer.summaryCrc ++ MAGIC ∧
      s.footer.summaryCrc = crc32 covered

/-- The footer has the place of the first offset, or 0 if there is none. -/
def OffsetStart : Prop :=
  s.footer.summaryOffsetStart.toNat =
    if s.offsets.isEmpty then 0 else (s.front ++ s.section_).length

/-- **All that the format asks of the summary section.** -/
structure Conforms (o : WriteOptions) : Prop where
  laid : s.Laid o
  offsetStart : s.OffsetStart

theorem offsetStart_at_end : u64 s.footer.summaryOffsetStart =
    (s.bytes.drop (s.bytes.length - 20)).take 8 := by
  have hcut : s.bytes = (s.front ++ (s.section_ ++ content (s.offsets.map .summaryOffset)) ++
      (op.FOOTER :: le 8 20 ++ u64 s.footer.summaryStart)) ++
        (u64 s.footer.summaryOffsetStart ++ (u32 s.footer.summaryCrc ++ MAGIC)) := by
    have hbody : (Footer.bytes s.footer).length = 20 := by simp [Footer.bytes]
    rw [bytes, Record.frame, frame_eq, Record.body, Record.opcode, hbody]
    simp only [Footer.bytes, opAndLen, List.append_assoc, List.cons_append]
  have hlen : (u64 s.footer.summaryOffsetStart ++ (u32 s.footer.summaryCrc ++ MAGIC)).length = 20 := by
    simp
  rw [hcut, List.length_append, hlen, Nat.add_sub_cancel, List.drop_left]
  exact (List.take_left' (length_u64 _)).symm

end SummarySection

/-! ## The groups -/

section
variable {o : WriteOptions} {order : HashOrder} {summary : Summary} {opcode : UInt8}
  {enabled : Bool}

/-- A group holds records of its opcode, and at least one. -/
def Group.Sorted (g : Group) : Prop := g.2 ≠ [] ∧ ∀ r ∈ g.2, r.opcode = g.1

theorem sorted_groupIf {records : List Record} (hop : ∀ r ∈ records, r.opcode = opcode)
    (hne : enabled = true → records ≠ []) :
    ∀ g ∈ groupIf enabled opcode records, Group.Sorted g := by
  intro g hg
  unfold groupIf at hg
  split at hg
  · rename_i hon
    cases List.mem_singleton.mp hg
    exact ⟨hne hon, hop⟩
  · cases hg

theorem opcode_of_mem_map {α : Type} {f : α → Record} (hf : ∀ a, (f a).opcode = opcode)
    (l : List α) : ∀ r ∈ l.map f, r.opcode = opcode := by
  intro r hr
  obtain ⟨a, -, rfl⟩ := List.mem_map.mp hr
  exact hf a

theorem enabled_iff {α : Type} {l : List α} :
    (enabled && !l.isEmpty) = true ↔ enabled = true ∧ l ≠ [] := by
  cases enabled <;> simp

theorem map_ne_nil_of_enabled {α β : Type} {f : α → β} {l : List α}
    (h : (enabled && !l.isEmpty) = true) : l.map f ≠ [] := by
  intro hnil
  exact (enabled_iff.mp h).2 (List.map_eq_nil_iff.mp hnil)

/-- **Each group has the records of one opcode.** -/
theorem sorted_summaryGroups : ∀ g ∈ summaryGroups o order summary, Group.Sorted g := by
  intro g hg
  simp only [summaryGroups, List.mem_append, or_assoc] at hg
  rcases hg with h | h | h | h | h | h
  · exact sorted_groupIf (opcode_of_mem_map (f := Summary.schemaRecord) (fun _ => rfl) _)
      (fun hon => (enabled_iff.mp hon).2) g h
  · exact sorted_groupIf (opcode_of_mem_map (f := Summary.channelRecord) (fun _ => rfl) _)
      (fun hon => (enabled_iff.mp hon).2) g h
  · cases hs : summary.stats with
    | none =>
      rw [hs] at h
      cases h
    | some stats =>
      rw [hs] at h
      exact sorted_groupIf (opcode_of_mem_map (f := Record.statistics) (fun _ => rfl) [stats])
        (fun _ => List.cons_ne_nil _ _) g h
  · exact sorted_groupIf (opcode_of_mem_map (f := Record.chunkIndex) (fun _ => rfl) _)
      map_ne_nil_of_enabled g h
  · exact sorted_groupIf (opcode_of_mem_map (f := Record.attachmentIndex) (fun _ => rfl) _)
      map_ne_nil_of_enabled g h
  · exact sorted_groupIf (opcode_of_mem_map (f := Record.metadataIndex) (fun _ => rfl) _)
      map_ne_nil_of_enabled g h

theorem map_fst_groupIf (enabled : Bool) (opcode : UInt8) (records : List Record) :
    ((groupIf enabled opcode records).map Prod.fst).Sublist [opcode] := by
  cases enabled
  · exact List.nil_sublist _
  · exact List.Sublist.refl _

theorem map_fst_summaryGroups : ((summaryGroups o order summary).map Prod.fst).Sublist
    ([op.SCHEMA] ++ [op.CHANNEL] ++ [op.STATISTICS] ++ [op.CHUNK_INDEX] ++ [op.ATTACHMENT_INDEX] ++
      [op.METADATA_INDEX]) := by
  have hstats : ((statisticsGroup o.emitStatistics summary.stats).map Prod.fst).Sublist
      [op.STATISTICS] := by
    cases summary.stats with
    | none => exact List.nil_sublist _
    | some stats => exact map_fst_groupIf ..
  simp only [summaryGroups, List.map_append]
  exact (((((map_fst_groupIf ..).append (map_fst_groupIf ..)).append hstats).append
    (map_fst_groupIf ..)).append (map_fst_groupIf ..)).append (map_fst_groupIf ..)

theorem nodup_summaryGroups : ((summaryGroups o order summary).map Prod.fst).Nodup :=
  map_fst_summaryGroups.nodup (by decide)

/-- There is something to summarize. -/
def Summary.Nonempty (o : WriteOptions) (summary : Summary) : Prop :=
  (o.repeatSchemas = true ∧ summary.schemas.toList ≠ []) ∨
    (o.repeatChannels = true ∧ summary.channels.toList ≠ []) ∨ o.emitStatistics = true ∨
    (o.emitChunkIndexes = true ∧ summary.chunkIndexes ≠ []) ∨
    (o.emitAttachmentIndexes = true ∧ summary.attachmentIndexes ≠ []) ∨
    (o.emitMetadataIndexes = true ∧ summary.metadataIndexes ≠ [])

theorem groupIf_ne_nil {records : List Record} :
    groupIf enabled opcode records ≠ [] ↔ enabled = true := by
  cases enabled <;> simp [groupIf]

/-- **No group is written if and only if there is nothing to summarize.** -/
theorem summaryGroups_ne_nil (hstats : summary.stats ≠ none) :
    summaryGroups o order summary ≠ [] ↔ summary.Nonempty o := by
  obtain ⟨stats, hsome⟩ := Option.ne_none_iff_exists'.mp hstats
  have hschemas : (order.schemas summary.schemas).map Summary.schemaRecord ≠ [] ↔
      summary.schemas.toList ≠ [] := by
    rw [Ne, List.map_eq_nil_iff, ← List.length_eq_zero_iff,
      (order.schemas_perm summary.schemas).length_eq, List.length_eq_zero_iff]
  have hchannels : (order.channels summary.channels).map Summary.channelRecord ≠ [] ↔
      summary.channels.toList ≠ [] := by
    rw [Ne, List.map_eq_nil_iff, ← List.length_eq_zero_iff,
      (order.channels_perm summary.channels).length_eq, List.length_eq_zero_iff]
  have happend : ∀ {gs gs' : List Group}, gs ++ gs' ≠ [] ↔ gs ≠ [] ∨ gs' ≠ [] := by
    intro gs gs'
    rw [Ne, List.append_eq_nil_iff, not_and_or]
  rw [summaryGroups, hsome, statisticsGroup]
  simp only [happend, groupIf_ne_nil, enabled_iff, hschemas, hchannels, or_assoc]
  exact Iff.rfl

end

/-! ## The offsets -/

theorem length_groupOffsets (pos : Nat) (groups : List Group) :
    (groupOffsets pos groups).length = groups.length := by
  induction groups generalizing pos with
  | nil => rfl
  | cons g groups ih => rw [groupOffsets, List.length_cons, List.length_cons, ih]

theorem groupOffsets_getElem? (pos : Nat) (pre : List Group) (g : Group) (post : List Group) :
    (groupOffsets pos (pre ++ g :: post))[pre.length]? = some
      { groupOpcode := g.1
        groupStart := .ofNat (pos + (content (groupRecords pre)).length)
        groupLength := .ofNat (content g.2).length } := by
  induction pre generalizing pos with
  | nil => rfl
  | cons g' pre ih =>
    rw [List.cons_append, groupOffsets, List.length_cons, List.getElem?_cons_succ, ih,
      content_groupRecords_cons, List.length_append, Nat.add_assoc]

section
variable {o : WriteOptions} {data : Bytes} {dataEnd : DataEnd} {groups : List Group}

/-- A file, with its offsets and its footer as the writer computes them. -/
def sectionOf (o : WriteOptions) (data : Bytes) (dataEnd : DataEnd) (groups : List Group) :
    SummarySection where
  data
  dataEnd
  groups
  offsets :=
    if o.emitSummaryOffsets then
      groupOffsets (data ++ (Record.dataEnd dataEnd).frame).length groups
    else []
  footer := footerOf o (data ++ (Record.dataEnd dataEnd).frame).length groups

theorem bytes_sectionOf (groups : List Group) : (sectionOf o data dataEnd groups).bytes =
    data ++ (Record.dataEnd dataEnd).frame ++
      content (summaryRecords o (data ++ (Record.dataEnd dataEnd).frame).length groups) ++
      (Record.footer (footerOf o (data ++ (Record.dataEnd dataEnd).frame).length groups)).frame ++
      MAGIC := by
  have hoffsets : (sectionOf o data dataEnd groups).offsets.map Record.summaryOffset =
      offsetRecords o (data ++ (Record.dataEnd dataEnd).frame).length groups := by
    rw [sectionOf, offsetRecords]
    split <;> rfl
  rw [SummarySection.bytes, hoffsets, SummarySection.section_, ← content_append]
  rfl

theorem length_content_pos {records : List Record} (h : records ≠ []) :
    0 < (content records).length := by
  obtain ⟨r, rs, rfl⟩ := List.exists_cons_of_ne_nil h
  show 0 < (r.frame ++ content rs).length
  rw [List.length_append, Record.frame, length_frame]
  omega

theorem length_section_pos (hs : ∀ g ∈ groups, g.Sorted) (h : groups ≠ []) :
    0 < (content (groupRecords groups)).length := by
  obtain ⟨g, gs, rfl⟩ := List.exists_cons_of_ne_nil h
  rw [content_groupRecords_cons, List.length_append]
  have := length_content_pos (hs g List.mem_cons_self).1
  omega

theorem checksum_sectionOf (groups : List Group) (hcrc : o.calculateSummarySectionCrc = true) :
    ∃ covered, (sectionOf o data dataEnd groups).bytes = (sectionOf o data dataEnd groups).front ++ covered ++
        u32 (sectionOf o data dataEnd groups).footer.summaryCrc ++ MAGIC ∧
      (sectionOf o data dataEnd groups).footer.summaryCrc = crc32 covered := by
  refine ⟨content (summaryRecords o (data ++ (Record.dataEnd dataEnd).frame).length groups) ++
    (opAndLen op.FOOTER (8 + 8 + 4) ++
      footerFields o (data ++ (Record.dataEnd dataEnd).frame).length groups), ?_, ?_⟩
  · rw [bytes_sectionOf]
    simp only [SummarySection.front, sectionOf, Record.frame, frame_eq, Record.body,
      Record.opcode, Footer.bytes, footerFields, footerOf, List.append_assoc, List.length_append,
      length_u64, length_u32]
  · show (footerOf _ _ _).summaryCrc = _
    rw [footerOf]
    exact if_pos hcrc

/-- **The file of the writer is laid out as the format asks.** -/
theorem laid_sectionOf (hs : ∀ g ∈ groups, g.Sorted) (hnodup : (groups.map Prod.fst).Nodup)
    (hlen : (sectionOf o data dataEnd groups).bytes.length < 2 ^ 64) : (sectionOf o data dataEnd groups).Laid o := by
  have hbytes : (sectionOf o data dataEnd groups).bytes.length =
      (sectionOf o data dataEnd groups).front.length + (content (groupRecords groups)).length +
        (content ((sectionOf o data dataEnd groups).offsets.map .summaryOffset)).length +
        (Record.footer (sectionOf o data dataEnd groups).footer).frame.length + MAGIC.length := by
    simp only [SummarySection.bytes, SummarySection.section_, List.length_append, sectionOf]
    omega
  refine ⟨hs, hnodup, fun hoff => ?_, fun hon => ?_, fun hon pre g post hgroups => ?_, ?_,
    checksum_sectionOf groups⟩
  · rw [sectionOf, hoff]
    rfl
  · rw [sectionOf, hon]
    exact length_groupOffsets _ _
  · have hgroups' : groups = pre ++ g :: post := hgroups
    have hpre : (content (groupRecords groups)).length = (content (groupRecords pre)).length +
        ((content g.2).length + (content (groupRecords post)).length) := by
      rw [hgroups', groupRecords, List.flatMap_append, content_append, List.length_append,
        ← groupRecords, ← groupRecords, content_groupRecords_cons, List.length_append]
    have hstart : (UInt64.ofNat ((sectionOf o data dataEnd groups).front.length +
        (content (groupRecords pre)).length)).toNat =
          ((sectionOf o data dataEnd groups).front ++ content (groupRecords pre)).length := by
      rw [UInt64.toNat_ofNat_of_lt' (show _ < 2 ^ 64 by omega), List.length_append]
    have hlength : (UInt64.ofNat (content g.2).length).toNat = (content g.2).length :=
      UInt64.toNat_ofNat_of_lt' (show _ < 2 ^ 64 by omega)
    refine ⟨{ groupOpcode := g.1
              groupStart := .ofNat ((sectionOf o data dataEnd groups).front.length +
                (content (groupRecords pre)).length)
              groupLength := .ofNat (content g.2).length }, ?_, rfl, hstart, ?_⟩
    · rw [show (sectionOf o data dataEnd groups).offsets =
        groupOffsets (sectionOf o data dataEnd groups).front.length groups from if_pos hon, hgroups']
      exact groupOffsets_getElem? _ pre g post
    · -- the file, cut before and behind the group
      have hcut : (sectionOf o data dataEnd groups).section_ =
          content (groupRecords pre) ++ (content g.2 ++ content (groupRecords post)) := by
        rw [SummarySection.section_, show (sectionOf o data dataEnd groups).groups = pre ++ g :: post from hgroups',
          groupRecords, List.flatMap_append, content_append, ← groupRecords, ← groupRecords,
          content_groupRecords_cons]
      rw [hstart, hlength, SummarySection.bytes, hcut]
      simp only [List.append_assoc]
      rw [← List.append_assoc, List.drop_left]
      exact List.take_left
  · show (UInt64.ofNat (if _ > _ then _ else 0)).toNat = _
    by_cases hne : groups = []
    · subst hne
      rw [if_neg (by rw [groupRecords, List.flatMap_nil, content_nil, List.length_nil]; omega)]
      rfl
    · have hpos := length_section_pos hs hne
      rw [if_pos (by omega), UInt64.toNat_ofNat_of_lt']
      · rw [show (sectionOf o data dataEnd groups).groups.isEmpty = false by simpa [sectionOf] using hne]
        rfl
      · have hfront : (sectionOf o data dataEnd groups).front.length < 2 ^ 64 := by omega
        exact hfront

/-- **The place of the offsets** is right if and only if there are some, or none are to be
written. -/
theorem offsetStart_sectionOf (hlen : (sectionOf o data dataEnd groups).bytes.length < 2 ^ 64) :
    (sectionOf o data dataEnd groups).OffsetStart ↔ (o.emitSummaryOffsets = true → groups ≠ []) := by
  have hfront : 0 < (sectionOf o data dataEnd groups).front.length := by
    rw [SummarySection.front, List.length_append, Record.frame, length_frame]
    omega
  have hfits : ((sectionOf o data dataEnd groups).front ++ (sectionOf o data dataEnd groups).section_).length < 2 ^ 64 := by
    rw [SummarySection.bytes, ← List.append_assoc] at hlen
    simp only [List.length_append] at hlen ⊢
    omega
  have hend : (sectionOf o data dataEnd groups).footer.summaryOffsetStart.toNat =
      if o.emitSummaryOffsets then
        ((sectionOf o data dataEnd groups).front ++ (sectionOf o data dataEnd groups).section_).length else 0 := by
    show (UInt64.ofNat (if o.emitSummaryOffsets then (sectionOf o data dataEnd groups).front.length +
      (sectionOf o data dataEnd groups).section_.length else 0)).toNat = _
    rw [List.length_append] at hfits ⊢
    split
    · exact UInt64.toNat_ofNat_of_lt' hfits
    · rfl
  unfold SummarySection.OffsetStart
  rw [hend]
  cases hon : o.emitSummaryOffsets with
  | false =>
    rw [show (sectionOf o data dataEnd groups).offsets = [] from if_neg (by rw [hon]; exact Bool.false_ne_true)]
    simp
  | true =>
    have hoffsets : (sectionOf o data dataEnd groups).offsets.isEmpty = groups.isEmpty := by
      rw [show (sectionOf o data dataEnd groups).offsets =
        groupOffsets (sectionOf o data dataEnd groups).front.length groups from if_pos hon]
      cases groups <;> rfl
    rw [hoffsets, List.length_append]
    cases groups with
    | nil =>
      refine iff_of_false (fun h => ?_) fun h => h rfl rfl
      have hzero : (sectionOf o data dataEnd []).front.length + (sectionOf o data dataEnd []).section_.length = 0 := h
      omega
    | cons g groups => simp

end

/-! ## What there is to summarize -/

section
variable {σ : Type} [Encoders σ] {o : WriteOptions} {w w' w₁ : Writer σ Stream} {order : HashOrder}
  {summary : Summary}

omit [Encoders σ] in
/-- **There is something to summarize**: a schema or a channel, the statistics, or a chunk, an
attachment or a metadata record, and the options ask for it. -/
def Writer.Summarizes (o : WriteOptions) (w : Writer σ Stream) : Prop :=
  (o.repeatSchemas = true ∧ w.allSchemaIds ≠ ∅) ∨ (o.repeatChannels = true ∧ w.allChannelIds ≠ ∅) ∨
    o.emitStatistics = true ∨ (o.emitChunkIndexes = true ∧ ¬ w.Unchunked) ∨
    (o.emitAttachmentIndexes = true ∧ w.attachmentIndexes ≠ []) ∨
    (o.emitMetadataIndexes = true ∧ w.metadataIndexes ≠ [])

theorem Writer.finishChunk_chunkIndexes (hn : w.finishedSummary = none)
    (hfc : finishChunk w = (.ok (), w₁)) : w₁.chunkIndexes = [] ↔ w.Unchunked := by
  constructor
  · intro hnil
    rw [finishChunk, Exec.bind_ok (assertNotFinished_run hn), Exec.bind_ok (Exec.get_run w)] at hfc
    rcases hw : w.writer with _ | (c | c | a | s)
    case some.chunk =>
      simp only [hw] at hfc
      rcases hc : c.finish with ⟨writer, mode, index⟩ | ⟨stream, e⟩ | _
      · simp only [hc] at hfc
        rw [Exec.modify_run] at hfc
        cases hfc
        simp at hnil
      · simp only [hc] at hfc
        rw [Exec.bind_ok (Exec.modify_run _ w)] at hfc
        cases hfc
      · simp only [hc] at hfc
        cases hfc
    all_goals
      simp only [hw] at hfc
      cases hfc
    exact ⟨hnil, fun c hc => by rw [hw] at hc; cases hc⟩
  · intro hun
    obtain rfl := finishChunk_of_unchunked hn hun hfc
    exact hun.1

omit [Encoders σ] in
theorem summaryWith_nonempty_iff {schemas : BTreeMap UInt16 Schema} {channels : BTreeMap UInt16 Channel}
    (hcore : w₁.core = w.core) (hindexes : w₁.chunkIndexes = [] ↔ w.Unchunked)
    (hs : w₁.summarySchemas = some schemas) (hc : w₁.summaryChannels schemas = some channels) :
    (w₁.summaryWith schemas channels).Nonempty o ↔ w.Summarizes o := by
  have hschemaIds : w₁.allSchemaIds = w.allSchemaIds :=
    show w₁.core.allSchemaIds = w.core.allSchemaIds from congrArg _ hcore
  have hchannelIds : w₁.allChannelIds = w.allChannelIds :=
    show w₁.core.allChannelIds = w.core.allChannelIds from congrArg _ hcore
  have hattachments : w₁.attachmentIndexes = w.attachmentIndexes :=
    show w₁.core.attachmentIndexes = w.core.attachmentIndexes from congrArg _ hcore
  have hmetadata : w₁.metadataIndexes = w.metadataIndexes :=
    show w₁.core.metadataIndexes = w.core.metadataIndexes from congrArg _ hcore
  have hschemas : schemas.toList = [] ↔ w.allSchemaIds = ∅ := by
    have h := BTreeMap.foldlM_eq_empty_iff (f := w₁.canonicalSchemas.getByRight)
      (g := SchemaContent.schema) (m := ∅) hs
    rw [Std.ExtTreeMap.toList_eq_nil_iff, h, Std.ExtTreeMap.toList_eq_nil_iff, hschemaIds]
    exact and_iff_right rfl
  have hchannels : channels.toList = [] ↔ w.allChannelIds = ∅ := by
    have h := BTreeMap.foldlM_eq_empty_iff (f := w₁.canonicalChannels.getByRight)
      (g := fun id content => ChannelContent.channel id content schemas[content.schemaId]?) (m := ∅) hc
    rw [Std.ExtTreeMap.toList_eq_nil_iff, h, Std.ExtTreeMap.toList_eq_nil_iff, hchannelIds]
    exact and_iff_right rfl
  unfold Summary.Nonempty Writer.Summarizes
  simp only [Writer.summaryWith, Ne, hschemas, hchannels, hindexes, hattachments, hmetadata]

/-- **The layout of the summary section**, for every run of the writer that is finished.  It is what
the format asks, except that the footer has a place for offsets that are not there if offsets are to be
written and there is nothing to summarize. -/
theorem summary_layout_iff {P : Writer σ Stream → Op → Res McapError Reply → Prop}
    {calls : List (Op × Res McapError Reply)} (hsession : Writer.Session P o calls w)
    (hfin : Writer.finish order w = (.ok summary, w')) :
    ∃ s : SummarySection, w'.Produced s.bytes ∧ s.groups = summaryGroups o order summary ∧
      (s.bytes.length < 2 ^ 64 → s.Laid o ∧
        (s.Conforms o ↔ (o.emitSummaryOffsets = true → w.Summarizes o))) := by
  obtain ⟨j, hj⟩ := hsession.recorded (K := fun _ => True) trivial fun _ op _ _ => op.keeps_true o
  obtain ⟨w₁, es, schemas, channels, hfc, -, -, hcore, hs, hc, rfl, hfile⟩ := hj.finish hfin
  have hindexes := Writer.finishChunk_chunkIndexes hj.shows_.notFinished hfc
  have hnonempty := summaryWith_nonempty_iff (o := o) hcore hindexes hs hc
  have hgroups : summaryGroups o order (w₁.summaryWith schemas channels) ≠ [] ↔ _ :=
    summaryGroups_ne_nil (Option.some_ne_none _)
  refine ⟨sectionOf o (dataBytes o es) ⟨((dataHasher o es).map Hasher.finalize).getD 0⟩
    (summaryGroups o order (w₁.summaryWith schemas channels)), ?_, rfl, fun hlen => ?_⟩
  · rw [bytes_sectionOf]
    exact hfile
  · have hlaid := laid_sectionOf sorted_summaryGroups nodup_summaryGroups hlen
    refine ⟨hlaid, ?_⟩
    rw [← hnonempty, ← hgroups, ← offsetStart_sectionOf hlen]
    exact ⟨fun h => h.offsetStart, fun h => ⟨hlaid, h⟩⟩

end

/-- Offsets, and nothing that they could be of. -/
def offsetsOnly : WriteOptions := { plainOptions with emitSummaryOffsets := true }

/-- A file with statistics and their offset. -/
theorem summary_layout_statistics : ∃ (w w' : Writer Empty Stream) (summary : Summary)
    (s : SummarySection), Writer.withOptions Stream.empty fullOptions = .ok w ∧
      Writer.finish .byId w = (.ok summary, w') ∧ w'.Produced s.bytes ∧
      (s.bytes.length < 2 ^ 64 → s.Conforms fullOptions) := by
  have hstart : Writer.Session (fun _ _ res => ∃ reply, res = .ok reply) fullOptions []
    (_ : Writer Empty Stream) := .start rfl
  obtain ⟨s, hproduced, -, hs⟩ := summary_layout_iff hstart
    (show Writer.finish .byId _ = (.ok _, _) from rfl)
  exact ⟨_, _, _, s, rfl, rfl, hproduced, fun hlen => (hs hlen).2.mpr fun _ => .inr (.inr (.inl rfl))⟩

/-- **A place for offsets that are not there**: the file of no calls. -/
theorem summary_layout_fails : ¬ ∀ (o : WriteOptions) (calls : List (Op × Res McapError Reply))
    (w w' : Writer Empty Stream) (order : HashOrder) (summary : Summary),
      Writer.Session (fun _ _ res => ∃ reply, res = .ok reply) o calls w →
      Writer.finish order w = (.ok summary, w') →
      ∃ s : SummarySection, w'.Produced s.bytes ∧ s.groups = summaryGroups o order summary ∧
        s.Conforms o := by
  intro h
  obtain ⟨s, ⟨c, hc, hbytes⟩, hgroups, hconforms⟩ :=
    h offsetsOnly [] _ _ .byId _ (.start rfl) (show Writer.finish .byId _ = (.ok _, _) from rfl)
  have hnone : s.offsets = [] := by
    have hlen := hconforms.laid.oneOffset rfl
    rw [hgroups] at hlen
    exact List.eq_nil_of_length_eq_zero hlen
  have hzero : s.footer.summaryOffsetStart = 0 := by
    have hstart := hconforms.offsetStart
    unfold SummarySection.OffsetStart at hstart
    rw [hnone] at hstart
    exact UInt64.toNat_inj.mp hstart
  have hend := s.offsetStart_at_end
  cases hc
  have hsame : s.bytes = _ := (congrArg Stream.bytes hbytes).symm
  rw [hzero, hsame] at hend
  exact absurd hend (by decide +kernel)

end Mcap

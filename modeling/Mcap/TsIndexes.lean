import Mcap.TsFinishing

/-! # The indexes of the TypeScript writer point at their records

An index gives the place of a record, and `cut` is what stands there.  `Parts.Indexed` says of the
indexes in a summary that the record is the one they are about, of an offset that it is that of a
group, and of the footer that it has the offsets of the first records.

`indexes_point` proves it of the files of the writer in the runs in which nothing waits in the record
builder where a place is taken for an index (`Careful`), and something is left to be summarized if
there are to be offsets (`Due`).
-/
namespace Mcap
namespace Ts

open McapRecordBuilder

/-! ## What stands at a place -/

/-- What stands at `[offset, offset + length)`. -/
def cut (file : Bytes) (offset length : Nat) : Bytes := (file.drop offset).take length

theorem cut_mid {file front mid back : Bytes} (h : file = front ++ (mid ++ back))
    {offset length : Nat} (hoffset : offset = front.length) (hlength : length = mid.length) :
    cut file offset length = mid := by
  subst h hoffset hlength
  unfold cut
  rw [List.drop_left, List.take_left]

theorem cut_placed {base tail file : Bytes} {l : List Item} {p : Place}
    (hfile : file = base ++ (Item.allBytes l ++ tail)) (h : p ∈ placed base.length l) :
    cut file p.offset p.length = p.item.record.bytes := by
  rw [hfile]
  exact slice_of_mem_placed h

theorem indexPlaces_spec (pos : Nat) (l : List Item) :
    ∃ back,
      l.map Item.record = ((indexPlaces (placed pos l)).map fun x => .messageIndex x.index) ++ back ∧
      ((indexPlaces (placed pos l)).map IndexPlace.length).sum =
        (recordBytes ((indexPlaces (placed pos l)).map fun x => .messageIndex x.index)).length ∧
      ∀ x ∈ indexPlaces (placed pos l), ∃ item, item.record = .messageIndex x.index ∧
        ⟨x.offset, x.length, item⟩ ∈ placed pos l := by
  induction l generalizing pos with
  | nil => exact ⟨[], rfl, rfl, fun x hx => absurd hx List.not_mem_nil⟩
  | cons i l ih =>
    rw [placed_cons, indexPlaces]
    cases hindex : i.record.messageIndex? with
    | none => exact ⟨(i :: l).map Item.record, rfl, rfl, fun x hx => absurd hx List.not_mem_nil⟩
    | some index =>
      obtain ⟨back, hback, hsum, hplaces⟩ := ih (pos + i.size)
      have hrecord : i.record = .messageIndex index := by
        cases hr : i.record <;> rw [hr] at hindex <;> cases hindex
        rfl
      dsimp only
      refine ⟨back, ?_, ?_, ?_⟩
      · rw [List.map_cons, List.map_cons, hback, hrecord]
        rfl
      · rw [List.map_cons, List.map_cons, List.sum_cons, hsum, recordBytes_cons, List.length_append]
        unfold Item.size
        rw [hrecord]
      · intro x hx
        rcases List.mem_cons.mp hx with rfl | hx
        · exact ⟨i, hrecord, List.mem_cons_self⟩
        · obtain ⟨item, hitem, hmem⟩ := hplaces x hx
          exact ⟨item, hitem, List.mem_cons_of_mem _ hmem⟩

/-- **A chunk among records**, with what stands behind it. -/
theorem mem_groupsOf {pos : Nat} {l : List Item} {g : Group} (h : g ∈ groupsOf (placed pos l)) :
    ∃ front back, l = front ++ ⟨.chunk g.chunk, g.inner⟩ :: back ∧
      g.offset = pos + (Item.allBytes front).length ∧
      g.length = (TypedMcapRecord.chunk g.chunk).bytes.length ∧
      g.indexes = indexPlaces (placed (g.offset + g.length) back) := by
  induction l generalizing pos with
  | nil => cases h
  | cons i l ih =>
    rw [placed_cons, groupsOf] at h
    have hlater : g ∈ groupsOf (placed (pos + i.size) l) →
        ∃ front back, i :: l = front ++ ⟨.chunk g.chunk, g.inner⟩ :: back ∧
          g.offset = pos + (Item.allBytes front).length ∧
          g.length = (TypedMcapRecord.chunk g.chunk).bytes.length ∧
          g.indexes = indexPlaces (placed (g.offset + g.length) back) := by
      intro hmem
      obtain ⟨front, back, hl, hoffset, hlength, hindexes⟩ := ih hmem
      refine ⟨i :: front, back, by rw [hl]; rfl, ?_, hlength, hindexes⟩
      rw [hoffset, Item.allBytes_cons, List.length_append, Nat.add_assoc]
      rfl
    cases hchunk : i.record.chunk? with
    | none =>
      rw [hchunk] at h
      exact hlater h
    | some chunk =>
      rw [hchunk] at h
      rcases List.mem_cons.mp h with rfl | h
      · have hrecord : i.record = .chunk chunk := by
          cases hr : i.record <;> rw [hr] at hchunk <;> cases hchunk
          rfl
        refine ⟨[], l, ?_, rfl, ?_, rfl⟩
        · obtain ⟨record, inner⟩ := i
          dsimp only at hrecord
          rw [hrecord]
          rfl
        · show i.size = _
          unfold Item.size
          rw [hrecord]
      · exact hlater h

/-! ## Indexed files -/

/-- **The indexes of a file point at their records.** -/
structure Parts.Indexed (options : McapWriterOptions) (p : Parts) (file : Bytes) : Prop where
  attachment : ∀ i, .attachmentIndex i ∈ recordsOf p.groups → ∃ a : Attachment,
    .attachment a ∈ p.items.map Item.record ∧
    cut file i.offset i.length = (TypedMcapRecord.attachment a).bytes ∧
    i.logTime = a.logTime ∧ i.createTime = a.createTime ∧ i.dataSize = a.data.length ∧
    i.name = a.name ∧ i.mediaType = a.mediaType
  metadata : ∀ i, .metadataIndex i ∈ recordsOf p.groups → ∃ m : Metadata,
    .metadata m ∈ p.items.map Item.record ∧
    cut file i.offset i.length = (TypedMcapRecord.metadata m).bytes ∧ i.name = m.name
  chunk : ∀ i, .chunkIndex i ∈ recordsOf p.groups → ∃ g : Group, i = g.chunkIndex ∧ g.Sound options ∧
    cut file g.offset g.length = (TypedMcapRecord.chunk g.chunk).bytes ∧
    (∀ x ∈ g.indexes, cut file x.offset x.length = (TypedMcapRecord.messageIndex x.index).bytes) ∧
    cut file (g.offset + g.length) i.messageIndexLength =
      recordBytes (g.indexes.map fun x => .messageIndex x.index)
  summaryOffset : ∀ o ∈ p.offsets, ∃ s ∈ p.groups, s.records ≠ [] ∧ o.groupOpcode = s.opcode.toNat ∧
    cut file o.groupStart o.groupLength = recordBytes s.records ∧
    ∀ r ∈ recordsOf p.groups, r ∈ s.records ↔ r.opcode = s.opcode
  summaryStart : p.footer.summaryStart =
    if recordsOf p.groups = [] then 0 else (p.front MAGIC).length
  summaryOffsetStart : p.footer.summaryOffsetStart =
    if p.offsets = [] then 0 else (p.front MAGIC).length + p.summary.length

/-- **There is something to summarize**: a writer has a record for the summary. -/
def Due (options : McapWriterOptions) (w : McapWriter) : Prop :=
  (options.repeatSchemas = true ∧ w.schemas.items ≠ []) ∨
  (options.repeatChannels = true ∧ w.channels.items ≠ []) ∨
  w.statistics.isSome = true ∨
  (∃ i l, w.metadataIndices = some (i :: l)) ∨
  (∃ i l, w.attachmentIndices = some (i :: l)) ∨
  w.chunkIndices.isSome = true ∧
    (w.chunkIndices ≠ some [] ∨ ∃ c, w.chunkBuilder = some c ∧ c.numMessages ≠ 0)

section
variable {options : McapWriterOptions} {w : McapWriter}

theorem sectionsOf_opcode (options : McapWriterOptions) (w : McapWriter) :
    (∀ s ∈ sectionsOf options w, ∀ r ∈ s.records, r.opcode = s.opcode) ∧
      ((sectionsOf options w).map Section.opcode).Nodup := by
  have hopcodes : ((sectionsOf options w).map Section.opcode).Sublist
      ([Opcode.SCHEMA] ++ [Opcode.CHANNEL] ++ [Opcode.STATISTICS] ++ [Opcode.METADATA_INDEX] ++
        [Opcode.ATTACHMENT_INDEX] ++ [Opcode.CHUNK_INDEX]) := by
    unfold sectionsOf
    simp only [List.map_append]
    refine List.Sublist.append (List.Sublist.append (List.Sublist.append (List.Sublist.append
      (List.Sublist.append ?_ ?_) ?_) ?_) ?_) ?_
    · cases options.repeatSchemas <;> simp
    · cases options.repeatChannels <;> simp
    · cases w.statistics <;> simp
    · cases w.metadataIndices <;> simp
    · cases w.attachmentIndices <;> simp
    · cases w.chunkIndices <;> simp
  refine ⟨?_, hopcodes.nodup (by decide)⟩
  intro s hs r hr
  unfold sectionsOf at hs
  simp only [List.mem_append, List.mem_map, Option.mem_toList] at hs
  rcases hs with ((((hs | hs) | ⟨x, -, rfl⟩) | ⟨x, -, rfl⟩) | ⟨x, -, rfl⟩) | ⟨x, -, rfl⟩
  · split at hs
    · rw [List.mem_singleton.mp hs] at hr ⊢
      obtain ⟨x, -, rfl⟩ := List.mem_map.mp hr
      rfl
    · cases hs
  · split at hs
    · rw [List.mem_singleton.mp hs] at hr ⊢
      obtain ⟨x, -, rfl⟩ := List.mem_map.mp hr
      rfl
    · cases hs
  · rw [List.mem_singleton.mp hr]
    rfl
  · obtain ⟨y, -, rfl⟩ := List.mem_map.mp hr
    rfl
  · obtain ⟨y, -, rfl⟩ := List.mem_map.mp hr
    rfl
  · obtain ⟨y, -, rfl⟩ := List.mem_map.mp hr
    rfl

/-- **What the records of a summary are.** -/
theorem mem_recordsOf {r : TypedMcapRecord} (hr : r ∈ recordsOf (sectionsOf options w)) :
    (options.repeatSchemas = true ∧ ∃ x ∈ w.schemas.values, r = .schema x) ∨
    (options.repeatChannels = true ∧ ∃ x ∈ w.channels.values, r = .channel x) ∨
    (∃ x, w.statistics = some x ∧ r = .statistics x) ∨
    (∃ l, w.metadataIndices = some l ∧ ∃ x ∈ l, r = .metadataIndex x) ∨
    (∃ l, w.attachmentIndices = some l ∧ ∃ x ∈ l, r = .attachmentIndex x) ∨
    (∃ l, w.chunkIndices = some l ∧ ∃ x ∈ l, r = .chunkIndex x) := by
  obtain ⟨s, hs, hr⟩ := List.mem_flatMap.mp hr
  unfold sectionsOf at hs
  simp only [List.mem_append, List.mem_map, Option.mem_toList] at hs
  rcases hs with ((((hs | hs) | ⟨x, hx, rfl⟩) | ⟨l, hl, rfl⟩) | ⟨l, hl, rfl⟩) | ⟨l, hl, rfl⟩
  · split at hs
    · rename_i hrepeat
      rw [List.mem_singleton.mp hs] at hr
      obtain ⟨x, hx, rfl⟩ := List.mem_map.mp hr
      exact .inl ⟨hrepeat, x, hx, rfl⟩
    · cases hs
  · split at hs
    · rename_i hrepeat
      rw [List.mem_singleton.mp hs] at hr
      obtain ⟨x, hx, rfl⟩ := List.mem_map.mp hr
      exact .inr (.inl ⟨hrepeat, x, hx, rfl⟩)
    · cases hs
  · exact .inr (.inr (.inl ⟨x, hx, List.mem_singleton.mp hr⟩))
  · obtain ⟨x, hx, rfl⟩ := List.mem_map.mp hr
    exact .inr (.inr (.inr (.inl ⟨l, hl, x, hx, rfl⟩)))
  · obtain ⟨x, hx, rfl⟩ := List.mem_map.mp hr
    exact .inr (.inr (.inr (.inr (.inl ⟨l, hl, x, hx, rfl⟩))))
  · obtain ⟨x, hx, rfl⟩ := List.mem_map.mp hr
    exact .inr (.inr (.inr (.inr (.inr ⟨l, hl, x, hx, rfl⟩))))

theorem mem_sectionsOf (options : McapWriterOptions) (w : McapWriter) :
    (∀ i, .attachmentIndex i ∈ recordsOf (sectionsOf options w) →
      ∃ l, w.attachmentIndices = some l ∧ i ∈ l) ∧
    (∀ i, .metadataIndex i ∈ recordsOf (sectionsOf options w) →
      ∃ l, w.metadataIndices = some l ∧ i ∈ l) ∧
    (∀ i, .chunkIndex i ∈ recordsOf (sectionsOf options w) →
      ∃ l, w.chunkIndices = some l ∧ i ∈ l) := by
  refine ⟨fun i hi => ?_, fun i hi => ?_, fun i hi => ?_⟩
  all_goals
    rcases mem_recordsOf hi with ⟨-, x, -, h⟩ | ⟨-, x, -, h⟩ | ⟨x, -, h⟩ | ⟨l, hl, x, hx, h⟩ |
      ⟨l, hl, x, hx, h⟩ | ⟨l, hl, x, hx, h⟩
    all_goals cases h
    exact ⟨l, hl, hx⟩

theorem dataWritten_lists (options : McapWriterOptions) (w : McapWriter) :
    (dataWritten options w).statistics.isSome = w.statistics.isSome ∧
    (∀ i l, w.chunkIndices = some (i :: l) →
      ∃ l', (dataWritten options w).chunkIndices = some (i :: l')) ∧
    (w.chunkIndices = some [] → (∃ c, w.chunkBuilder = some c ∧ c.numMessages ≠ 0) →
      ∃ i, (dataWritten options w).chunkIndices = some [i]) := by
  rcases finalizeChunk_cases options w with ⟨hsame, hzero⟩ | ⟨c, hchunk, hmessages⟩
  · unfold dataWritten
    rw [hsame]
    exact ⟨rfl, fun i l h => ⟨l, h⟩, fun _ ⟨c, hc, hne⟩ => absurd (hzero c hc) hne⟩
  · have hwritten : ∃ i, (dataWritten options w).statistics.isSome = w.statistics.isSome ∧
        (dataWritten options w).chunkIndices = w.chunkIndices.map fun l => l ++ [i] := by
      unfold dataWritten
      rw [finalizeChunk_eq hchunk hmessages]
      exact ⟨_, Option.isSome_map, rfl⟩
    obtain ⟨i, hstatistics, hchunks⟩ := hwritten
    refine ⟨hstatistics, fun j l h => ⟨l ++ [i], ?_⟩, fun h _ => ⟨i, ?_⟩⟩
    · rw [hchunks, h]
      rfl
    · rw [hchunks, h]
      rfl

/-- **A summary that is due** is not empty. -/
theorem Due.records_ne_nil (h : Due options w) :
    recordsOf (sectionsOf options (dataWritten options w)) ≠ [] := by
  have hleaves : Leaves w (dataWritten options w) := (leaves_finalizeChunk w).trans (leaves_flushData _)
  obtain ⟨hstatistics, hmore, hfirst⟩ := dataWritten_lists options w
  have hgroup : ∀ s ∈ sectionsOf options (dataWritten options w), s.records ≠ [] →
      recordsOf (sectionsOf options (dataWritten options w)) ≠ [] := by
    intro s hs hne hnil
    exact hne (List.flatMap_eq_nil_iff.mp hnil s hs)
  have hvalues : ∀ {α β : Type} (d : Dict Nat α) (f : α → β), d.items ≠ [] → d.values.map f ≠ [] := by
    intro α β d f hne hnil
    exact hne (List.map_eq_nil_iff.mp (List.map_eq_nil_iff.mp hnil))
  have hchunkGroup : ∀ i l, (dataWritten options w).chunkIndices = some (i :: l) →
      recordsOf (sectionsOf options (dataWritten options w)) ≠ [] := by
    intro i l hl
    refine hgroup ⟨Opcode.CHUNK_INDEX, (i :: l).map .chunkIndex⟩ ?_ (List.cons_ne_nil _ _)
    unfold sectionsOf
    rw [hl]
    simp
  rcases h with ⟨hrepeat, hne⟩ | ⟨hrepeat, hne⟩ | hsome | ⟨i, l, hl⟩ | ⟨i, l, hl⟩ | ⟨hsome, hchunks⟩
  · refine hgroup ⟨Opcode.SCHEMA, _⟩ ?_ (hvalues w.schemas .schema hne)
    unfold sectionsOf
    rw [show (dataWritten options w).schemas = w.schemas from hleaves.schemas, hrepeat]
    simp
  · refine hgroup ⟨Opcode.CHANNEL, _⟩ ?_ (hvalues w.channels .channel hne)
    unfold sectionsOf
    rw [show (dataWritten options w).channels = w.channels from hleaves.channels, hrepeat]
    simp
  · obtain ⟨x, hx⟩ := Option.isSome_iff_exists.mp (hstatistics.trans hsome)
    refine hgroup ⟨Opcode.STATISTICS, [.statistics x]⟩ ?_ (List.cons_ne_nil _ _)
    unfold sectionsOf
    rw [hx]
    simp
  · refine hgroup ⟨Opcode.METADATA_INDEX, (i :: l).map .metadataIndex⟩ ?_ (List.cons_ne_nil _ _)
    unfold sectionsOf
    rw [show (dataWritten options w).metadataIndices = some (i :: l) from
      hleaves.metadataIndices.trans hl]
    simp
  · refine hgroup ⟨Opcode.ATTACHMENT_INDEX, (i :: l).map .attachmentIndex⟩ ?_ (List.cons_ne_nil _ _)
    unfold sectionsOf
    rw [show (dataWritten options w).attachmentIndices = some (i :: l) from
      hleaves.attachmentIndices.trans hl]
    simp
  · obtain ⟨l, hl⟩ := Option.isSome_iff_exists.mp hsome
    cases l with
    | cons i l =>
      obtain ⟨l', hl'⟩ := hmore i l hl
      exact hchunkGroup i l' hl'
    | nil =>
      obtain ⟨i, hi⟩ := hfirst hl (hchunks.resolve_left fun hne => hne hl)
      exact hchunkGroup i [] hi

/-- **The indexes of a file that has been ended**, from what the journal says of the writer. -/
theorem indexed_of_ended {inner : List TypedMcapRecord} {p : Parts} {file : Bytes}
    (hlaid : Laid options (.new options) (dataWritten options w) p.items [] inner none)
    (hmarked : Marked (.new options) (dataWritten options w) p.items)
    (hfile : file = p.bytes MAGIC) (hended : p.Ended options MAGIC)
    (hgroups : p.groups = sectionsOf options (dataWritten options w))
    (hdue : options.useSummaryOffsets = true → recordsOf p.groups ≠ []) : p.Indexed options file := by
  obtain ⟨hattachment, hmetadata, hchunk⟩ := mem_sectionsOf options (dataWritten options w)
  obtain ⟨hopcode, hnodup⟩ := sectionsOf_opcode options (dataWritten options w)
  rw [← hgroups] at hattachment hmetadata hchunk hopcode hnodup
  have hdata : file = MAGIC ++ (Item.allBytes p.items ++
      ((TypedMcapRecord.dataEnd p.dataEnd).bytes ++ (p.summary ++ p.back))) := by
    rw [hfile]
    unfold Parts.bytes Parts.front
    simp only [List.append_assoc]
  have hplace : ∀ q ∈ placed MAGIC.length p.items, cut file q.offset q.length = q.item.record.bytes ∧
      q.item ∈ p.items := by
    intro q hq
    refine ⟨cut_placed hdata hq, ?_⟩
    obtain ⟨front, back, heq, -, -⟩ := mem_placed.mp hq
    rw [heq]
    exact List.mem_append_right _ List.mem_cons_self
  have hsummary : p.summary.length = 0 ↔ recordsOf p.groups = [] := by
    constructor
    · intro hzero
      unfold Parts.summary at hzero
      cases hrecords : recordsOf p.groups with
      | nil => rfl
      | cons r l =>
        rw [hrecords, recordBytes_cons, List.length_append] at hzero
        have hpos : 0 < r.bytes.length := Nat.succ_pos _
        omega
    · intro hnil
      unfold Parts.summary
      rw [hnil]
      rfl
  constructor
  · intro i hi
    obtain ⟨l, hl, hmem⟩ := hattachment i hi
    rw [hmarked.attachmentIndices] at hl
    obtain ⟨l', hl', rfl⟩ := Option.map_eq_some_iff.mp hl
    have hbase : l' = [] := by
      change (if options.useAttachmentIndex then _ else _) = some l' at hl'
      split at hl' <;> cases hl'
      rfl
    rw [hbase, List.nil_append] at hmem
    obtain ⟨q, hq, hindex⟩ := List.mem_filterMap.mp hmem
    obtain ⟨hcut, hitem⟩ := hplace q hq
    unfold attachmentIndexOf at hindex
    obtain ⟨a, ha, rfl⟩ := Option.map_eq_some_iff.mp hindex
    have hrecord : q.item.record = .attachment a := by
      cases hr : q.item.record <;> rw [hr] at ha <;> cases ha
      rfl
    rw [hrecord] at hcut
    exact ⟨a, hrecord ▸ List.mem_map_of_mem hitem, hcut, rfl, rfl, rfl, rfl, rfl⟩
  · intro i hi
    obtain ⟨l, hl, hmem⟩ := hmetadata i hi
    rw [hmarked.metadataIndices] at hl
    obtain ⟨l', hl', rfl⟩ := Option.map_eq_some_iff.mp hl
    have hbase : l' = [] := by
      change (if options.useMetadataIndex then _ else _) = some l' at hl'
      split at hl' <;> cases hl'
      rfl
    rw [hbase, List.nil_append] at hmem
    obtain ⟨q, hq, hindex⟩ := List.mem_filterMap.mp hmem
    obtain ⟨hcut, hitem⟩ := hplace q hq
    unfold metadataIndexOf at hindex
    obtain ⟨m, hm, rfl⟩ := Option.map_eq_some_iff.mp hindex
    have hrecord : q.item.record = .metadata m := by
      cases hr : q.item.record <;> rw [hr] at hm <;> cases hm
      rfl
    rw [hrecord] at hcut
    exact ⟨m, hrecord ▸ List.mem_map_of_mem hitem, hcut, rfl⟩
  · intro i hi
    obtain ⟨l, hl, hmem⟩ := hchunk i hi
    rw [hlaid.chunked.chunkIndices] at hl
    obtain ⟨l', hl', rfl⟩ := Option.map_eq_some_iff.mp hl
    have hbase : l' = [] := by
      change (if options.useChunkIndex then _ else _) = some l' at hl'
      split at hl' <;> cases hl'
      rfl
    rw [hbase, List.nil_append] at hmem
    obtain ⟨g, hg, rfl⟩ := List.mem_map.mp hmem
    obtain ⟨front, back, hitems, hoffset, hlength, hindexes⟩ := mem_groupsOf hg
    obtain ⟨rest, hrest, hsum, hplaces⟩ := indexPlaces_spec (g.offset + g.length) back
    rw [← hindexes] at hrest hsum hplaces
    obtain ⟨tail, htail⟩ : ∃ tail, tail =
        (TypedMcapRecord.dataEnd p.dataEnd).bytes ++ (p.summary ++ p.back) := ⟨_, rfl⟩
    rw [← htail] at hdata
    have hbefore : file = (MAGIC ++ Item.allBytes front) ++
        ((TypedMcapRecord.chunk g.chunk).bytes ++ (Item.allBytes back ++ tail)) := by
      rw [hdata, hitems, Item.allBytes_append, Item.allBytes_cons]
      simp only [List.append_assoc]
    have hstart : g.offset = (MAGIC ++ Item.allBytes front).length := by
      rw [hoffset, List.length_append]
      rfl
    refine ⟨g, rfl, hlaid.chunked.sound g hg, cut_mid hbefore hstart hlength, ?_, ?_⟩
    · intro x hx
      obtain ⟨item, hitem, hmem⟩ := hplaces x hx
      have hbehind : file = ((MAGIC ++ Item.allBytes front) ++
          (TypedMcapRecord.chunk g.chunk).bytes) ++ (Item.allBytes back ++ tail) := by
        rw [hbefore]
        simp only [List.append_assoc]
      have hlengthBehind : g.offset + g.length =
          ((MAGIC ++ Item.allBytes front) ++ (TypedMcapRecord.chunk g.chunk).bytes).length := by
        rw [List.length_append, ← hstart, hlength]
      rw [hlengthBehind] at hmem
      have hcut := cut_placed hbehind hmem
      rw [hitem] at hcut
      exact hcut
    · have hbehind : file = ((MAGIC ++ Item.allBytes front) ++
          (TypedMcapRecord.chunk g.chunk).bytes) ++
          (recordBytes (g.indexes.map fun x => .messageIndex x.index) ++ (recordBytes rest ++ tail)) := by
        rw [hbefore]
        unfold Item.allBytes
        rw [hrest, recordBytes_append]
        simp only [List.append_assoc]
      exact cut_mid hbehind (by rw [List.length_append, ← hstart, hlength]) hsum
  · intro o ho
    rw [hended.offsets] at ho
    split at ho
    · obtain ⟨hmem, hne⟩ := List.mem_filter.mp ho
      obtain ⟨front, s, back, hparts, rfl⟩ := mem_offsetsOf hmem
      have hne' : (recordBytes s.records).length ≠ 0 := of_decide_eq_true hne
      have hs : s ∈ p.groups := by
        rw [hparts]
        exact List.mem_append_right _ List.mem_cons_self
      refine ⟨s, hs, ?_, rfl, ?_, ?_⟩
      · intro hnil
        rw [hnil] at hne'
        exact hne' rfl
      · have hbehind : file = (p.front MAGIC ++ recordBytes (recordsOf front)) ++
            (recordBytes s.records ++ (recordBytes (recordsOf back) ++ p.back)) := by
          rw [hfile]
          unfold Parts.bytes Parts.summary
          rw [hparts, recordsOf_append, recordsOf_cons, recordBytes_append, recordBytes_append]
          simp only [List.append_assoc]
        exact cut_mid hbehind List.length_append.symm rfl
      · intro r hr
        refine ⟨hopcode s hs r, fun heq => ?_⟩
        obtain ⟨s', hs', hr'⟩ := List.mem_flatMap.mp hr
        have hsame : s'.opcode = s.opcode := (hopcode s' hs' r hr').symm.trans heq
        rw [← List.inj_on_of_nodup_map hnodup hs' hs hsame]
        exact hr'
    · cases ho
  · rw [hended.summaryStart]
    by_cases hnil : recordsOf p.groups = []
    · rw [if_pos hnil, if_pos (hsummary.mpr hnil)]
    · rw [if_neg hnil, if_neg (fun hzero => hnil (hsummary.mp hzero))]
  · rw [hended.summaryOffsetStart]
    have hoffsets := hended.offsets
    split at hoffsets
    · rename_i huse
      rw [if_pos huse, if_neg]
      intro hnil
      obtain ⟨o, ho, hne⟩ := exists_offset (p.front MAGIC).length (hdue huse)
      rw [hnil] at hoffsets
      have hmem : o ∈ (offsetsOf (p.front MAGIC).length p.groups).filter fun o => o.groupLength ≠ 0 :=
        List.mem_filter.mpr ⟨ho, decide_eq_true hne⟩
      rw [← hoffsets] at hmem
      cases hmem
    · rename_i huse
      rw [if_neg huse, if_pos hoffsets]

theorem performAll_keeps (options : McapWriterOptions) (calls : List Call) (w : McapWriter) :
    (w.performAll options calls).chunkBuilder.isSome = w.chunkBuilder.isSome ∧
      (w.performAll options calls).dataSectionCrc.isSome = w.dataSectionCrc.isSome := by
  induction calls generalizing w with
  | nil => exact ⟨rfl, rfl⟩
  | cons call calls ih =>
    obtain ⟨hchunks, hcrc⟩ := ih (call.perform options w)
    have hstep : (call.perform options w).chunkBuilder.isSome = w.chunkBuilder.isSome ∧
        (call.perform options w).dataSectionCrc.isSome = w.dataSectionCrc.isSome := by
      cases call with
      | registerSchema info | registerChannel info => exact ⟨rfl, rfl⟩
      | addAttachment a | addMetadata m => exact ⟨rfl, Option.isSome_map⟩
      | addMessage message =>
        rcases hneed : (counted message w).needChannel message.channelId with e | w'
        · have hrun : Call.perform options w (.addMessage message) = counted message w :=
            congrArg Prod.snd (addMessage_eq_error hneed)
          rw [hrun]
          exact ⟨rfl, rfl⟩
        · have hleaves := (leaves_needChannel hneed).trans (leaves_putMessage message w')
          have hrun : Call.perform options w (.addMessage message) = _ :=
            congrArg Prod.snd (addMessage_eq_ok hneed)
          rw [hrun]
          dsimp only
          split
          · have hclosed : Leaves _ ((w'.putMessage message).finalizeChunk options) :=
              hleaves.trans (leaves_finalizeChunk _)
            exact ⟨hclosed.chunks, hclosed.crc⟩
          · exact ⟨hleaves.chunks, hleaves.crc⟩
    exact ⟨hchunks.trans hstep.1, hcrc.trans hstep.2⟩

/-- **Nothing ever waits in the record builder** of a writer of chunks. -/
theorem careful_of_chunks {header : Header} (huse : options.useChunks = true)
    (hstart : (McapWriter.new options).start header = .ok w) (calls : List Call) :
    Careful options w calls := by
  obtain ⟨w', hstart', hregistered, hlaid, -, -⟩ := start_spec options header
  rw [hstart] at hstart'
  cases hstart'
  intro before call after _
  have hchunks : (w.performAll options before).chunkBuilder.isSome = true := by
    refine (performAll_keeps options before w).1.trans ?_
    cases hstart
    show (if options.useChunks then _ else _ : Option ChunkBuilder).isSome = true
    rw [if_pos huse]
    rfl
  obtain ⟨c, hc⟩ := Option.isSome_iff_exists.mp hchunks
  obtain ⟨-, more, pending, inner, hlaid', -⟩ := hlaid.performAll before hregistered
  have hempty : (w.performAll options before).recordWriter.buffer = [] := by
    rw [hlaid'.tape.buffer, (hlaid'.opened c hc).2]
    rfl
  cases call with
  | addAttachment a | addMetadata m => exact fun _ => hempty
  | _ => trivial

/-- **What a run has to be**: where a place is taken for an index nothing waits in the record builder,
and if there are to be offsets, there is something to summarize. -/
structure IndexedRun (options : McapWriterOptions) (header : Header) (calls : List Call) : Prop where
  careful : ∀ w, (McapWriter.new options).start header = .ok w → Careful options w calls
  due : ∀ w, (McapWriter.new options).start header = .ok w → options.useSummaryOffsets = true →
    Due options (w.performAll options calls)

end

/-- No chunks, and no index but that of attachments. -/
def unchunked : McapWriterOptions where
  useStatistics := false
  useSummaryOffsets := false
  useChunks := false
  repeatSchemas := false
  repeatChannels := false
  useMetadataIndex := false
  useMessageIndex := false
  useChunkIndex := false

/-- A message, and an attachment. -/
def waitingCalls : List Call :=
  [.registerSchema ⟨"", "", []⟩, .registerChannel ⟨1, "", "", ∅⟩, .addMessage ⟨0, 1, 5, 6, [9]⟩,
    .addAttachment ⟨"", 1, 2, "", [7]⟩]

/-- What they make: the attachment stands at 105, and its index says 25. -/
def waitingParts : Parts where
  items := [.plain (.header ⟨"", ""⟩), .plain (.schema ⟨1, "", "", []⟩),
    .plain (.channel ⟨0, 1, "", "", ∅⟩), .plain (.message ⟨0, 1, 5, 6, [9]⟩),
    .plain (.attachment ⟨"", 1, 2, "", [7]⟩)]
  dataEnd := ⟨3624101331⟩
  groups := [⟨Opcode.ATTACHMENT_INDEX, [.attachmentIndex ⟨25, 46, 1, 2, 1, "", ""⟩]⟩]
  offsets := []
  footer := ⟨164, 0, 2322319779⟩

end Ts
end Mcap

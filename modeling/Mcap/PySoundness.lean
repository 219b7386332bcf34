import Mcap.PySound

/-! # When a file of the writer of the Python library is sound

`Wrote` is what is known of a file and its writer behind a call of `finish` that returns.  What the
reader makes of the file is one side of it (`Wrote.records`), and what is in its summary the other
(`summaryRecords`).  `writer_sound_iff` puts them together.
-/
namespace Mcap
namespace Py

open Written (allBytes placed)

/-! ## Kinds -/

section
variable {D : Decompressors} {record : McapRecord}

/-- What the records of a data section are not. -/
structure McapRecord.NotTrailing (record : McapRecord) : Prop where
  dataEnd : record.dataEnd? = none
  footer : record.footer? = none
  statistics : record.statistics? = none
  chunkIndex : record.chunkIndex? = none
  attachmentIndex : record.attachmentIndex? = none
  metadataIndex : record.metadataIndex? = none
  summaryOffset : record.summaryOffset? = none

theorem McapRecord.InData.notTrailing (h : record.InData D) : record.NotTrailing := by
  constructor <;> (cases record <;> first | rfl | cases h)

/-- What no index is about, and is none of a channel. -/
structure McapRecord.Unindexed (record : McapRecord) : Prop where
  attachment : record.attachment? = none
  metadata : record.metadata? = none
  chunk : record.chunk? = none
  messageIndex : record.messageIndex? = none

theorem McapRecord.Trailing.unindexed (h : record.Trailing) : record.Unindexed := by
  constructor <;> (cases record <;> first | rfl | cases h)

theorem McapRecord.InChunk.unindexed (h : record.InChunk) : record.Unindexed := by
  constructor <;> (cases record <;> first | rfl | cases h)

theorem McapRecord.InChunk.inData (h : record.InChunk) : record.InData D := h.plain.inData

theorem dataEnd?_shownOf (h : record.InData D) : ∀ x ∈ shownOf D record, x.dataEnd? = none := by
  intro x hx
  cases record with
  | chunk chunk =>
    obtain ⟨records, hrecords, hin⟩ := h
    change x ∈ (breakupChunk D chunk true).toOption.getD [] at hx
    rw [hrecords] at hx
    exact ((hin x hx).inData (D := D)).notTrailing.dataEnd
  | _ =>
    first
      | (rw [List.mem_singleton.mp hx]; rfl)
      | cases h

theorem filterMap_shownOf {α : Type} {f : McapRecord → Option α} (hf : ∀ i, f (.messageIndex i) = none)
    (l : List McapRecord) : (l.flatMap (shownOf D)).filterMap f = (contents D l).filterMap f := by
  have hrecord : ∀ x : McapRecord, (shownOf D x).filterMap f = (contentsOf D x).filterMap f := by
    intro x
    cases x with
    | messageIndex i => exact List.filterMap_cons_none (hf i)
    | _ => rfl
  induction l with
  | nil => rfl
  | cons x l ih =>
    unfold contents at ih ⊢
    rw [List.flatMap_cons, List.flatMap_cons, List.filterMap_append, List.filterMap_append, hrecord, ih]

end

/-! ## The summary -/

/-- The records of the summary. -/
def summaryRecords (opts : WriterOptions) (w : Writer) : List McapRecord :=
  (if opts.repeatSchemas then w.schemas.values.map .schema else []) ++
    ((if opts.repeatChannels then w.channels.values.map .channel else []) ++
    ((if opts.useStatistics then [w.statistics].map .statistics else []) ++
    ((if opts.indexTypes.chunk then w.chunkIndices.map .chunkIndex else []) ++
    ((if opts.indexTypes.attachment then w.attachmentIndexes.map .attachmentIndex else []) ++
    ((if opts.indexTypes.metadata then w.metadataIndexes.map .metadataIndex else []))))))

theorem flatMap_enabledGroups (l : List Writer.SummaryGroup) :
    (enabledGroups l).flatMap Writer.SummaryGroup.records =
      l.flatMap fun g => if g.enabled then g.records else [] := by
  induction l with
  | nil => rfl
  | cons g l ih =>
    unfold enabledGroups at ih ⊢
    cases henabled : g.enabled with
    | false =>
      rw [List.filter_cons_of_neg (by rw [henabled]; exact Bool.false_ne_true), ih,
        List.flatMap_cons, if_neg (by rw [henabled]; exact Bool.false_ne_true), List.nil_append]
    | true =>
      rw [List.filter_cons_of_pos henabled, List.flatMap_cons, ih, List.flatMap_cons,
        if_pos henabled]

theorem flatMap_summaryGroups (opts : WriterOptions) (w : Writer) :
    (enabledGroups (Writer.summaryGroups opts w)).flatMap Writer.SummaryGroup.records =
      summaryRecords opts w := by
  rw [flatMap_enabledGroups]
  unfold Writer.summaryGroups summaryRecords
  simp only [List.flatMap_cons, List.flatMap_nil, List.append_nil, List.map_cons, List.map_nil]

section
variable {opts : WriterOptions} {w : Writer}

theorem schema_mem_summary {s : Schema} :
    .schema s ∈ summaryRecords opts w ↔ opts.repeatSchemas = true ∧ s ∈ w.schemas.values := by
  unfold summaryRecords
  simp [List.mem_append]

theorem channel_mem_summary {c : Channel} :
    .channel c ∈ summaryRecords opts w ↔ opts.repeatChannels = true ∧ c ∈ w.channels.values := by
  unfold summaryRecords
  simp [List.mem_append]

theorem statistics_mem_summary {s : Statistics} :
    .statistics s ∈ summaryRecords opts w ↔ opts.useStatistics = true ∧ s = w.statistics := by
  unfold summaryRecords
  simp [List.mem_append]

theorem filterMap_group {α β : Type} (f : McapRecord → Option β) (mk : α → McapRecord) (c : Bool)
    (l : List α) : (if c then l.map mk else []).filterMap f =
      if c then l.filterMap fun a => f (mk a) else [] := by
  cases c with
  | true => exact List.filterMap_map
  | false => rfl

theorem summary_chunkIndexes : (summaryRecords opts w).filterMap McapRecord.chunkIndex? =
    if opts.indexTypes.chunk then w.chunkIndices else [] := by
  unfold summaryRecords
  simp only [List.filterMap_append, filterMap_group, McapRecord.chunkIndex?, List.filterMap_none,
    List.filterMap_some, ite_self, List.nil_append, List.append_nil]

theorem summary_attachmentIndexes :
    (summaryRecords opts w).filterMap McapRecord.attachmentIndex? =
      if opts.indexTypes.attachment then w.attachmentIndexes else [] := by
  unfold summaryRecords
  simp only [List.filterMap_append, filterMap_group, McapRecord.attachmentIndex?,
    List.filterMap_none, List.filterMap_some, ite_self, List.nil_append, List.append_nil]

theorem summary_metadataIndexes :
    (summaryRecords opts w).filterMap McapRecord.metadataIndex? =
      if opts.indexTypes.metadata then w.metadataIndexes else [] := by
  unfold summaryRecords
  simp only [List.filterMap_append, filterMap_group, McapRecord.metadataIndex?,
    List.filterMap_none, List.filterMap_some, ite_self, List.nil_append]

theorem of_mem_summary {record : McapRecord} (h : record ∈ summaryRecords opts w) :
    record.Trailing ∧ record.inSummary = true ∧ record.dataEnd? = none := by
  have hmap : ∀ {α : Type} {c : Bool} {l : List α} {mk : α → McapRecord},
      record ∈ (if c then l.map mk else []) → ∃ a, mk a = record := by
    intro α c l mk hmem
    cases c with
    | true =>
      obtain ⟨a, -, ha⟩ := List.mem_map.mp hmem
      exact ⟨a, ha⟩
    | false => exact absurd hmem List.not_mem_nil
  unfold summaryRecords at h
  simp only [List.mem_append] at h
  rcases h with h | h | h | h | h | h
  all_goals
    obtain ⟨a, rfl⟩ := hmap h
    exact ⟨trivial, rfl, rfl⟩

end

/-! ## Offsets -/

section
variable {kind : McapRecord → Bool} {l m : List Written} {pos : Nat}

theorem firstOffset_none (hl : ∀ x ∈ l, kind x.record = false) :
    firstOffset kind (placed pos l) = 0 := by
  have hfind : (placed pos l).find? (fun p => kind p.record) = none :=
    List.find?_eq_none.mpr fun p hp => by
      rw [forall_placed (P := fun r => kind r = false) hl p hp]
      exact Bool.false_ne_true
  unfold firstOffset
  rw [hfind]
  rfl

theorem firstOffset_head (hne : l ≠ []) (hl : ∀ x ∈ l, kind x.record = true) :
    firstOffset kind (placed pos (l ++ m)) = pos := by
  cases l with
  | nil => exact absurd rfl hne
  | cons x l =>
    unfold firstOffset
    rw [List.cons_append, Written.placed_cons, List.find?_cons]
    simp only [hl x List.mem_cons_self]
    rfl

theorem firstOffset_skip (hl : ∀ x ∈ l, kind x.record = false) :
    firstOffset kind (placed pos (l ++ m)) = firstOffset kind (placed (pos + (allBytes l).length) m) := by
  have hfind : (placed pos l).find? (fun p => kind p.record) = none :=
    List.find?_eq_none.mpr fun p hp => by
      rw [forall_placed (P := fun r => kind r = false) hl p hp]
      exact Bool.false_ne_true
  unfold firstOffset
  rw [Written.placed_append, List.find?_append, hfind]
  rfl

end

/-! ## A file and its writer -/

theorem split_unique {α : Type} {P : α → Prop} {a b : α} {front back front' back' : List α}
    (heq : front ++ a :: back = front' ++ b :: back') (hb : P b) (hfront : ∀ x ∈ front, ¬ P x)
    (hback : ∀ x ∈ back, ¬ P x) : front' = front ∧ b = a := by
  rcases List.append_eq_append_iff.mp heq with ⟨l, rfl, hl⟩ | ⟨l, rfl, hl⟩
  · cases l with
    | nil =>
      rw [List.nil_append, List.cons.injEq] at hl
      exact ⟨List.append_nil _, hl.1.symm⟩
    | cons x l =>
      rw [List.cons_append, List.cons.injEq] at hl
      exact absurd hb (hback b (hl.2 ▸ List.mem_append_right _ List.mem_cons_self))
  · cases l with
    | nil =>
      rw [List.nil_append, List.cons.injEq] at hl
      exact ⟨(List.append_nil _).symm, hl.1⟩
    | cons x l =>
      rw [List.cons_append, List.cons.injEq] at hl
      obtain ⟨rfl, -⟩ := hl
      exact absurd hb (hfront b (List.mem_append_right _ List.mem_cons_self))

theorem framed_piece (l : List Written) :
    (l.map Written.piece).map Piece.framed = l.map Written.framed := List.map_map

/-- **What is known of a file** and its writer behind `finish`. -/
structure Wrote (opts : WriterOptions) (D : Decompressors) (calls : List Call) (w : Writer)
    (j : Journal) (file : Bytes) (dataEnd : Written) (summary offsets : List Written)
    (footer : Written) : Prop where
  shows : Shows opts D w j calls
  dataEnd_eq : dataEnd.record = .dataEnd ⟨w.dataSectionCrc.toNat⟩
  finished : Finished opts w file (j.flushed ++ j.pending) dataEnd summary offsets footer
  quiet : logTimes (j.inner.map Written.record) = []

/-- The records of the data section. -/
def Journal.data (j : Journal) : List Written := j.flushed ++ j.pending

/-- What is yielded for the data section. -/
def Journal.shown (D : Decompressors) (j : Journal) : List McapRecord :=
  (j.data.map Written.record).flatMap (shownOf D)

namespace Wrote
variable {opts : WriterOptions} {D : Decompressors} {calls : List Call} {w : Writer} {j : Journal}
  {file : Bytes} {dataEnd footer : Written} {summary offsets : List Written} {r : StreamReader}
  (h : Wrote opts D calls w j file dataEnd summary offsets footer)
include h

theorem inData : ∀ x ∈ j.data, x.record.InData D := by
  intro x hx
  rcases List.mem_append.mp hx with hx | hx
  · exact h.shows.laid.indexed.inData x hx
  · exact (h.shows.laid.pending x hx).inData

theorem mem_summary : ∀ x ∈ summary, x.record ∈ summaryRecords opts w := by
  intro x hx
  rw [← flatMap_summaryGroups, ← h.finished.summary_eq]
  exact List.mem_map_of_mem hx

theorem mem_offsets : ∀ x ∈ offsets, ∃ o, x.record = .summaryOffset o := by
  intro x hx
  obtain ⟨os, hos, -⟩ := h.finished.offsets_eq
  have hmem := List.mem_map_of_mem (f := Written.record) hx
  rw [hos] at hmem
  obtain ⟨o, -, ho⟩ := List.mem_map.mp hmem
  exact ⟨o, ho.symm⟩

theorem trailing : ∀ x ∈ dataEnd :: (summary ++ offsets), x.record.Trailing := by
  intro x hx
  rcases List.mem_cons.mp hx with rfl | hx
  · rw [h.dataEnd_eq]
    trivial
  · rcases List.mem_append.mp hx with hx | hx
    · exact (of_mem_summary (h.mem_summary x hx)).1
    · obtain ⟨o, ho⟩ := h.mem_offsets x hx
      rw [ho]
      trivial

theorem footer_record : ∃ f, footer.record = .footer f := by
  obtain ⟨crc, hfooter⟩ := h.finished.footer_eq
  exact ⟨_, hfooter⟩

theorem file_eq : file =
    MAGIC ++ (allBytes (j.data ++ dataEnd :: (summary ++ offsets ++ [footer])) ++ MAGIC) := by
  rw [h.finished.file_eq, List.append_assoc summary]
  rfl

theorem behind : ∀ x ∈ summary ++ offsets ++ [footer], x.record.dataEnd? = none := by
  intro x hx
  rcases List.mem_append.mp hx with hx | hx
  · rcases List.mem_append.mp hx with hx | hx
    · exact (of_mem_summary (h.mem_summary x hx)).2.2
    · obtain ⟨o, ho⟩ := h.mem_offsets x hx
      rw [ho]
      rfl
  · obtain ⟨f, hf⟩ := h.footer_record
    rw [List.mem_singleton.mp hx, hf]
    rfl

theorem check (hcrc : w.dataSectionCrc ≠ 0 → w.dataSectionCrc = crc32 (MAGIC ++ allBytes j.data))
    {front back : List Piece} {p : Piece}
    (heq : (j.data ++ dataEnd :: (summary ++ offsets ++ [footer])).map Written.piece =
      front ++ p :: back) :
    r.checkDataEnd (crc32 (MAGIC ++ frames (front.map Piece.framed))).toNat p.record = .ok () := by
  obtain ⟨l, l', hl, rfl, hl'⟩ := List.map_eq_append_iff.mp heq
  obtain ⟨x, l', rfl, rfl, rfl⟩ := List.map_eq_cons_iff.mp hl'
  show r.checkDataEnd _ (some x.record) = _
  cases hx : x.record with
  | dataEnd d =>
    -- there is one such record, and it is behind the data
    obtain ⟨rfl, rfl⟩ := split_unique (P := fun y : Written => y.record.dataEnd? ≠ none) hl
      (by rw [hx]; exact Option.some_ne_none d)
      (fun y hy => not_not.mpr (h.inData y hy).notTrailing.dataEnd)
      (fun y hy => not_not.mpr (h.behind y hy))
    rw [h.dataEnd_eq] at hx
    cases hx
    rw [framed_piece, ← Written.allBytes_eq]
    unfold StreamReader.checkDataEnd
    refine if_neg fun ⟨_, _, hne, hdiffers⟩ => hdiffers ?_
    have hzero : w.dataSectionCrc ≠ 0 := fun hzero => hne (by rw [hzero]; rfl)
    rw [hcrc hzero]
  | _ => rfl

theorem fileOf_eq (hr : Validating r) : file = fileOf r
      ((j.data ++ dataEnd :: (summary ++ offsets)).map Written.piece ++ [footer.piece]) := by
  have hframed : ((j.data ++ dataEnd :: (summary ++ offsets)).map Written.piece ++
      [footer.piece]).map Piece.framed =
        (j.data ++ dataEnd :: (summary ++ offsets ++ [footer])).map Written.framed := by
    rw [show (j.data ++ dataEnd :: (summary ++ offsets)).map Written.piece ++ [footer.piece] =
      (j.data ++ dataEnd :: (summary ++ offsets) ++ [footer]).map Written.piece by simp,
        framed_piece]
    simp
  unfold fileOf
  rw [h.file_eq, hr.skipMagic, if_neg Bool.false_ne_true, Written.allBytes_eq, hframed]

theorem inner : ∀ x ∈ j.data ++ dataEnd :: (summary ++ offsets), x.piece.Inner := by
  intro x hx f heq
  have heq : x.record = .footer f := Option.some.inj heq
  rcases List.mem_append.mp hx with hx | hx
  · have hdata := (h.inData x hx).notTrailing.footer
    rw [heq] at hdata
    cases hdata
  · have htrailing := h.trailing x hx
    rw [heq] at htrailing
    cases htrailing

/-- **What a reader makes of the file.** -/
theorem records (hr : Validating r) (hlimit : ∀ limit, r.recordSizeLimit = some limit →
      ∀ x ∈ j.data ++ dataEnd :: (summary ++ offsets ++ [footer]), x.body.length ≤ limit)
    (hcrc : w.dataSectionCrc ≠ 0 → w.dataSectionCrc = crc32 (MAGIC ++ allBytes j.data)) :
    r.records D file = (j.shown D ++
      dataEnd.record :: ((summary ++ offsets).map Written.record ++ [footer.record]), none) := by
  obtain ⟨f, hf⟩ := h.footer_record
  have hassoc : j.data ++ dataEnd :: (summary ++ offsets ++ [footer]) =
      (j.data ++ dataEnd :: (summary ++ offsets)) ++ [footer] := by simp
  have hwhole : ∀ x ∈ (j.data ++ dataEnd :: (summary ++ offsets)) ++ [footer], x.piece.Whole r :=
    fun x hx => ⟨x.recordOf_eq, x.bounded, fun limit hl => hlimit limit hl x (hassoc ▸ hx)⟩
  rw [h.fileOf_eq hr, records_fileOf
    (fun p hp => by
      obtain ⟨x, hx, rfl⟩ := List.mem_map.mp hp
      exact hwhole x (List.mem_append_left _ hx))
    (fun p hp => by
      obtain ⟨x, hx, rfl⟩ := List.mem_map.mp hp
      exact h.inner x hx)
    (hwhole footer (List.mem_append_right _ List.mem_cons_self)) (congrArg some hf)
    (fun front p back heq _ => h.check hcrc
      (show _ = front ++ p :: (back ++ [footer.piece]) by
        rw [hassoc, List.map_append, heq, List.append_assoc]
        rfl))]
  have hpieces : ((j.data ++ dataEnd :: (summary ++ offsets)).map Written.piece).map Piece.record ++
      [footer.piece.record] = (j.data.map Written.record ++
        ((dataEnd :: (summary ++ offsets)).map Written.record ++ [McapRecord.footer f])).map some := by
    simp [Function.comp_def, Written.piece, hf]
  rw [hpieces, delivered_file hr, hf]
  · rfl
  · intro x hx
    obtain ⟨y, hy, rfl⟩ := List.mem_map.mp hx
    exact h.inData y hy
  · intro x hx
    obtain ⟨y, hy, rfl⟩ := List.mem_map.mp hx
    exact h.trailing y hy

/-- **A record that is too long** is not read. -/
theorem long (hr : Validating r)
    (hlong : ∃ x ∈ j.data ++ dataEnd :: (summary ++ offsets ++ [footer]), x.piece.Long r)
    (hcrc : w.dataSectionCrc ≠ 0 → w.dataSectionCrc = crc32 (MAGIC ++ allBytes j.data)) :
    (r.records D file).2 ≠ none := by
  have hlast : (j.data ++ dataEnd :: (summary ++ offsets ++ [footer])).dropLast =
      j.data ++ dataEnd :: (summary ++ offsets) := by
    rw [show j.data ++ dataEnd :: (summary ++ offsets ++ [footer]) =
      (j.data ++ dataEnd :: (summary ++ offsets)) ++ [footer] by simp, List.dropLast_concat]
  obtain ⟨x, hx, hlong⟩ := hlong
  have hcheck : ∀ front p back, (j.data ++ dataEnd :: (summary ++ offsets ++ [footer])).map
      Written.piece = front ++ p :: back → r.checkDataEnd
        (crc32 (MAGIC ++ frames (front.map Piece.framed))).toNat p.record = .ok () :=
    fun _ _ _ heq => h.check hcrc heq
  rw [h.file_eq]
  obtain ⟨l, hl⟩ : ∃ l, j.data ++ dataEnd :: (summary ++ offsets ++ [footer]) = l := ⟨_, rfl⟩
  rw [hl] at hx hlast hcheck ⊢
  have hframes : allBytes l = frames ((l.map Written.piece).map Piece.framed) := by
    rw [framed_piece, Written.allBytes_eq]
  have hlen := Written.length_le_allBytes l
  have hloop : (StreamReader.loop (r.turn D (MAGIC ++ (allBytes l ++ MAGIC)))
      (readMagic ReadDataStream.read) ((MAGIC ++ (allBytes l ++ MAGIC)).length + 1)
      ⟨frames ((l.map Written.piece).map Piece.framed) ++ MAGIC, 8⟩).2 ≠ none := by
    refine loop_long 8 (fun p hp => ?_) (fun p hp => ?_) (fun p hp => ?_)
      ⟨x.piece, List.mem_map_of_mem hx, hlong⟩ ?_ fun front p back heq => ?_
    · obtain ⟨y, -, rfl⟩ := List.mem_map.mp hp
      exact y.recordOf_eq
    · obtain ⟨y, -, rfl⟩ := List.mem_map.mp hp
      exact y.bounded
    · rw [← List.map_dropLast, hlast] at hp
      obtain ⟨y, hy, rfl⟩ := List.mem_map.mp hp
      exact h.inner y hy
    · rw [List.length_map, List.length_append, List.length_append]
      omega
    · have htake : (MAGIC ++ (allBytes l ++ MAGIC)).take
          (8 + (frames (front.map Piece.framed)).length) =
            MAGIC ++ frames (front.map Piece.framed) := by
        rw [hframes, heq, List.map_append, frames_append, ← MAGIC_length, ← List.length_append,
          List.append_assoc, ← List.append_assoc MAGIC, List.take_left]
      rw [htake]
      exact hcheck front p back heq
  unfold StreamReader.records StreamReader.run
  rw [hr.skipMagic, if_neg Bool.false_ne_true,
    show Cursor.new (MAGIC ++ (allBytes l ++ MAGIC)) = ⟨MAGIC ++ (allBytes l ++ MAGIC), 0⟩ from rfl,
    readMagic_magic]
  rw [← hframes] at hloop
  exact hloop

/-! ### Where the records are -/

theorem located_eq : located file = placed 8 j.data ++
      ⟨(MAGIC ++ allBytes j.data).length, dataEnd.size, dataEnd.record⟩ ::
        placed (MAGIC ++ allBytes (j.data ++ [dataEnd])).length (summary ++ offsets ++ [footer]) := by
  have hpos : (MAGIC ++ allBytes j.data).length + dataEnd.size =
      (MAGIC ++ allBytes (j.data ++ [dataEnd])).length := by
    have hsize : (allBytes [dataEnd]).length = dataEnd.size := by
      rw [Written.allBytes_cons, Written.allBytes_nil, List.append_nil]
      rfl
    rw [Written.allBytes_append, ← List.append_assoc, ← hsize]
    exact List.length_append.symm
  rw [h.file_eq, Written.located_file, placed_behind, Written.placed_cons, hpos]

theorem unindexed :
    ∀ x ∈ j.pending ++ dataEnd :: (summary ++ offsets ++ [footer]), x.record.Unindexed := by
  intro x hx
  rcases List.mem_append.mp hx with hx | hx
  · exact (h.shows.laid.pending x hx).unindexed
  · rw [← List.cons_append] at hx
    rcases List.mem_append.mp hx with hx | hx
    · exact (h.trailing x hx).unindexed
    · obtain ⟨f, hf⟩ := h.footer_record
      rw [List.mem_singleton.mp hx, hf]
      exact ⟨rfl, rfl, rfl, rfl⟩

theorem located_flushed :
    located file = placed 8 j.flushed ++ placed (MAGIC ++ allBytes j.flushed).length
      (j.pending ++ dataEnd :: (summary ++ offsets ++ [footer])) := by
  rw [h.file_eq, Written.located_file, ← placed_behind, Journal.data, List.append_assoc]

theorem groups_located : groups (located file) = groups (placed 8 j.flushed) := by
  have hindexes : ∀ {pos : Nat} {l : List Written}, (∀ x ∈ l, x.record.Unindexed) →
      indexPlaces (placed pos l) = [] := by
    intro pos l hl
    cases l with
    | nil => rfl
    | cons x l => rw [Written.placed_cons, indexPlaces, (hl x List.mem_cons_self).messageIndex]
  rw [h.located_flushed, groups_append (hindexes h.unindexed),
    groups_eq_nil (forall_placed (P := fun r => r.chunk? = none) fun x hx => (h.unindexed x hx).chunk),
    List.append_nil]

theorem filterMap_located
    {α : Type} {f : Place → Option α} (hf : ∀ p : Place, p.record.Unindexed → f p = none) :
    (located file).filterMap f = (placed 8 j.flushed).filterMap f := by
  rw [h.located_flushed, List.filterMap_append, List.filterMap_eq_nil_iff.mpr fun p hp =>
    hf p (forall_placed h.unindexed p hp), List.append_nil]

/-! ### What is yielded -/

theorem sections (rest : List McapRecord) :
    dataSection (j.shown D ++ dataEnd.record :: rest) = j.shown D ∧
      summarySection (j.shown D ++ dataEnd.record :: rest) = dataEnd.record :: rest := by
  have hshown : ∀ x ∈ j.shown D, (x.dataEnd?.isNone) = true := by
    intro x hx
    obtain ⟨y, hy, hx⟩ := List.mem_flatMap.mp hx
    obtain ⟨z, hz, rfl⟩ := List.mem_map.mp hy
    rw [dataEnd?_shownOf (h.inData z hz) x hx]
    rfl
  have hend : ¬ dataEnd.record.dataEnd?.isNone = true := by
    rw [h.dataEnd_eq]
    exact Bool.false_ne_true
  constructor
  · unfold dataSection
    rw [List.takeWhile_append_of_pos hshown, List.takeWhile_cons, if_neg hend, List.append_nil]
  · unfold summarySection
    rw [List.dropWhile_append_of_pos hshown, List.dropWhile_cons, if_neg hend]

theorem filterMap_shown {α : Type}
    {f : McapRecord → Option α} (hf : ∀ i, f (.messageIndex i) = none) :
    (j.shown D).filterMap f ++ (j.inner.map Written.record).filterMap f = (j.held D).filterMap f := by
  unfold Journal.shown Journal.held Journal.data
  rw [filterMap_shownOf hf, List.map_append, contents_append,
    contents_plain D fun x hx => (h.shows.laid.pending x hx).plain, ← List.filterMap_append]

theorem mem_rest
    {record : McapRecord} (hdataEnd : record.dataEnd? = none) (hoffset : record.summaryOffset? = none)
    (hfooter : record.footer? = none) :
    record ∈ dataEnd.record :: ((summary ++ offsets).map Written.record ++ [footer.record]) ↔
      record ∈ summaryRecords opts w := by
  obtain ⟨f, hf⟩ := h.footer_record
  obtain ⟨os, hos, -⟩ := h.finished.offsets_eq
  rw [List.map_append, h.finished.summary_eq, flatMap_summaryGroups, hos, hf, h.dataEnd_eq]
  simp only [List.mem_cons, List.mem_append, List.not_mem_nil, or_false]
  constructor
  · rintro (rfl | (hmem | hmem) | rfl)
    · cases hdataEnd
    · exact hmem
    · obtain ⟨o, -, rfl⟩ := List.mem_map.mp hmem
      cases hoffset
    · cases hfooter
  · exact fun hmem => .inr (.inl (.inl hmem))

theorem filterMap_rest {α : Type}
    {f : McapRecord → Option α} (hdataEnd : ∀ d, f (.dataEnd d) = none)
    (hoffset : ∀ o, f (.summaryOffset o) = none) (hfooter : ∀ r, f (.footer r) = none) :
    (dataEnd.record :: ((summary ++ offsets).map Written.record ++ [footer.record])).filterMap f =
      (summaryRecords opts w).filterMap f := by
  obtain ⟨r, hr⟩ := h.footer_record
  obtain ⟨os, hos, -⟩ := h.finished.offsets_eq
  have hoffsets : (os.map McapRecord.summaryOffset).filterMap f = [] := by
    refine List.filterMap_eq_nil_iff.mpr fun x hx => ?_
    obtain ⟨o, -, rfl⟩ := List.mem_map.mp hx
    exact hoffset o
  rw [h.dataEnd_eq, List.filterMap_cons_none (hdataEnd _), List.map_append,
    h.finished.summary_eq, flatMap_summaryGroups, hos, hr, List.filterMap_append,
    List.filterMap_append, hoffsets, List.append_nil, List.filterMap_cons_none (hfooter r)]
  exact List.append_nil _

theorem filterMap_rest_nil
    {α : Type} {f : McapRecord → Option α} (hf : ∀ x : McapRecord, x.Trailing → f x = none)
    (hfooter : ∀ r, f (.footer r) = none) :
    (dataEnd.record :: ((summary ++ offsets).map Written.record ++ [footer.record])).filterMap f =
      [] := by
  rw [h.filterMap_rest (fun _ => hf _ trivial) (fun _ => hf _ trivial) hfooter]
  exact List.filterMap_eq_nil_iff.mpr fun x hx => hf x (of_mem_summary hx).1

/-! ### The end of the data section -/

theorem take_eq : file.take (MAGIC ++ allBytes j.data).length = MAGIC ++ allBytes j.data := by
  rw [h.file_eq, Written.allBytes_append, List.append_assoc, ← List.append_assoc MAGIC,
    List.take_left]

theorem dataEnd_located : ((located file).filter fun p => p.record.dataEnd?.isSome) =
      [⟨(MAGIC ++ allBytes j.data).length, dataEnd.size, .dataEnd ⟨w.dataSectionCrc.toNat⟩⟩] := by
  have hnil : ∀ {pos : Nat} {l : List Written}, (∀ x ∈ l, x.record.dataEnd? = none) →
      ((placed pos l).filter fun p => p.record.dataEnd?.isSome) = [] := by
    intro pos l hl
    refine List.filter_eq_nil_iff.mpr fun p hp => ?_
    rw [forall_placed (P := fun r => r.dataEnd? = none) hl p hp]
    exact Bool.false_ne_true
  rw [h.located_eq, h.dataEnd_eq, List.filter_append, hnil fun x hx =>
    (h.inData x hx).notTrailing.dataEnd, List.filter_cons_of_pos rfl, hnil fun x hx => h.behind x hx]
  rfl

/-! ### The footer -/

theorem summaryPlaces_eq :
    summaryPlaces file = placed (MAGIC ++ allBytes (j.data ++ [dataEnd])).length
      (summary ++ offsets ++ [footer]) := by
  have hdata : ∀ p ∈ placed 8 j.data, (p.record.dataEnd?.isNone) = true := by
    intro p hp
    rw [forall_placed (P := fun r => r.dataEnd? = none)
      (fun x hx => (h.inData x hx).notTrailing.dataEnd) p hp]
    rfl
  have hend : ¬ dataEnd.record.dataEnd?.isNone = true := by
    rw [h.dataEnd_eq]
    exact Bool.false_ne_true
  unfold summaryPlaces
  rw [h.located_eq, List.dropWhile_append_of_pos hdata, List.dropWhile_cons, if_neg hend]
  rfl

/-- **The offsets of the footer** are sound if there is a summary, or no offsets are written. -/
theorem footer_iff : (∃ offset length f, (summaryPlaces file).getLast? =
        some ⟨offset, length, McapRecord.footer f⟩ ∧
      f.summaryStart = firstOffset McapRecord.inSummary (summaryPlaces file) ∧
      f.summaryOffsetStart =
        firstOffset (fun r => r.summaryOffset?.isSome) (summaryPlaces file)) ↔
    (opts.useSummaryOffsets = true → summaryRecords opts w ≠ []) := by
  obtain ⟨crc, hfooter⟩ := h.finished.footer_eq
  obtain ⟨os, hos, hlen⟩ := h.finished.offsets_eq
  obtain ⟨pos, hpos⟩ : ∃ pos, (MAGIC ++ allBytes (j.data ++ [dataEnd])).length = pos := ⟨_, rfl⟩
  have hpositive : 0 < pos := by
    rw [← hpos, List.length_append, MAGIC_length]
    omega
  have hsummary : ∀ x ∈ summary, x.record.inSummary = true ∧ x.record.summaryOffset? = none := by
    intro x hx
    have hin := (of_mem_summary (h.mem_summary x hx)).2.1
    refine ⟨hin, ?_⟩
    unfold McapRecord.inSummary at hin
    simpa using (Bool.and_eq_true_iff.mp hin).1
  have hoffsets : ∀ x ∈ offsets, x.record.inSummary = false ∧
      x.record.summaryOffset?.isSome = true := by
    intro x hx
    obtain ⟨o, ho⟩ := h.mem_offsets x hx
    rw [ho]
    exact ⟨rfl, rfl⟩
  have hlast : footer.record.inSummary = false ∧ footer.record.summaryOffset?.isSome = false := by
    rw [hfooter]
    exact ⟨rfl, rfl⟩
  have hfirst : firstOffset McapRecord.inSummary (summaryPlaces file) =
      if summary = [] then 0 else pos := by
    rw [h.summaryPlaces_eq, hpos, List.append_assoc]
    split
    · rename_i hnil
      rw [hnil, List.nil_append]
      refine firstOffset_none fun x hx => ?_
      rcases List.mem_append.mp hx with hx | hx
      · exact (hoffsets x hx).1
      · rw [List.mem_singleton.mp hx]
        exact hlast.1
    · rename_i hne
      exact firstOffset_head hne fun x hx => (hsummary x hx).1
  have hfirst' : firstOffset (fun r => r.summaryOffset?.isSome) (summaryPlaces file) =
      if offsets = [] then 0 else pos + (allBytes summary).length := by
    rw [h.summaryPlaces_eq, hpos, List.append_assoc, firstOffset_skip fun x hx => by
      rw [(hsummary x hx).2]
      rfl]
    split
    · rename_i hnil
      rw [hnil, List.nil_append]
      refine firstOffset_none fun x hx => ?_
      rw [List.mem_singleton.mp hx]
      exact hlast.2
    · rename_i hne
      exact firstOffset_head hne fun x hx => (hoffsets x hx).2
  have hnil : summaryRecords opts w = [] ↔ summary = [] := by
    rw [← flatMap_summaryGroups, ← h.finished.summary_eq, List.map_eq_nil_iff]
  have hplace : (summaryPlaces file).getLast? =
      some ⟨pos + (allBytes (summary ++ offsets)).length, footer.size, footer.record⟩ := by
    rw [h.summaryPlaces_eq, hpos, Written.placed_append]
    exact List.getLast?_concat
  have hend : (MAGIC ++ allBytes (j.data ++ dataEnd :: summary)).length =
      pos + (allBytes summary).length := by
    rw [← hpos, ← List.length_append, List.append_assoc, ← Written.allBytes_append,
      List.append_assoc]
    rfl
  have hcount : offsets.length = os.length := by
    rw [← List.length_map (f := Written.record), hos, List.length_map]
  rw [hfirst, hfirst']
  constructor
  · rintro ⟨_, _, f, hf, hstart, hoffset⟩ huse hempty
    rw [hplace] at hf
    have hf : footer.record = .footer f := congrArg Place.record (Option.some.inj hf)
    rw [hfooter] at hf
    cases hf
    have hsummary := hnil.mp hempty
    rw [if_pos hsummary, hsummary, List.nil_append] at hstart
    change (if offsets.length = 0 then 0 else (MAGIC ++ allBytes (j.data ++ [dataEnd])).length) = 0
      at hstart
    change (if opts.useSummaryOffsets then (MAGIC ++ allBytes (j.data ++ dataEnd :: summary)).length
      else 0) = _ at hoffset
    rw [if_pos huse, hend] at hoffset
    -- either offset is 0, and there is neither a record nor an offset at 0
    rcases Nat.eq_zero_or_pos offsets.length with hzero | hsome
    · rw [if_pos (List.eq_nil_of_length_eq_zero hzero)] at hoffset
      omega
    · rw [if_neg hsome.ne', hpos] at hstart
      omega
  · intro hsome
    refine ⟨_, _, _, hplace.trans (by rw [hfooter]), ?_, ?_⟩
    · show (if (summary ++ offsets).length = 0 then 0
        else (MAGIC ++ allBytes (j.data ++ [dataEnd])).length) = _
      rw [hpos, List.length_append]
      by_cases hsummary : summary = []
      · have huse : ¬ opts.useSummaryOffsets = true := fun huse => hsome huse (hnil.mpr hsummary)
        rw [if_neg huse] at hlen
        rw [if_pos hsummary, if_pos (by rw [hsummary, hcount, hlen]; rfl)]
      · have hpos : 0 < summary.length := List.length_pos_iff.mpr hsummary
        rw [if_neg hsummary, if_neg (by omega)]
    · show (if opts.useSummaryOffsets then
        (MAGIC ++ allBytes (j.data ++ dataEnd :: summary)).length else 0) = _
      rw [hend]
      by_cases huse : opts.useSummaryOffsets = true
      · have hgroups : enabledGroups (Writer.summaryGroups opts w) ≠ [] := by
          intro hgroups
          refine hsome huse ?_
          rw [← flatMap_summaryGroups, hgroups]
          rfl
        rw [if_pos huse] at hlen
        have hne : offsets ≠ [] := by
          rintro rfl
          exact hgroups (List.eq_nil_of_length_eq_zero (hlen ▸ hcount.symm))
        rw [if_pos huse, if_neg hne]
      · rw [if_neg huse] at hlen
        rw [if_neg huse, if_pos (List.eq_nil_of_length_eq_zero (hcount.trans hlen))]

/-! ### What was written -/

theorem shown_messages : (j.shown D).filterMap McapRecord.message? = messagesOf calls := by
  have hinner : (j.inner.map Written.record).filterMap McapRecord.message? = [] :=
    List.map_eq_nil_iff.mp h.quiet
  have hshown := h.filterMap_shown (f := McapRecord.message?) fun _ => rfl
  rwa [hinner, List.append_nil, h.shows.given.messages] at hshown

theorem shown_attachments : (j.shown D).filterMap McapRecord.attachment? = attachmentsOf calls := by
  have hinner : (j.inner.map Written.record).filterMap McapRecord.attachment? = [] :=
    List.filterMap_eq_nil_iff.mpr fun r hr => (h.shows.laid.inner_inChunk r hr).attachment?
  have hshown := h.filterMap_shown (f := McapRecord.attachment?) fun _ => rfl
  rwa [hinner, List.append_nil, h.shows.given.attachments] at hshown

theorem shown_metadata : (j.shown D).filterMap McapRecord.metadata? = metadataOf calls := by
  have hinner : (j.inner.map Written.record).filterMap McapRecord.metadata? = [] :=
    List.filterMap_eq_nil_iff.mpr fun r hr => (h.shows.laid.inner_inChunk r hr).metadata?
  have hshown := h.filterMap_shown (f := McapRecord.metadata?) fun _ => rfl
  rwa [hinner, List.append_nil, h.shows.given.metadata] at hshown

theorem values_schemas : w.schemas.values = schemasOf calls := by
  unfold Dict.values
  rw [h.shows.books.definitions.schemas, List.map_map]
  exact List.map_id _

theorem values_channels : w.channels.values = channelsOf calls := by
  unfold Dict.values
  rw [h.shows.books.definitions.channels, List.map_map]
  exact List.map_id _

theorem nodup_schemas : (schemasOf calls).Nodup := by
  have hnodup := w.schemas.nodup
  rw [h.shows.books.definitions.schemas, List.map_map] at hnodup
  exact hnodup.of_map

theorem nodup_channels : (channelsOf calls).Nodup := by
  have hnodup := w.channels.nodup
  rw [h.shows.books.definitions.channels, List.map_map] at hnodup
  exact hnodup.of_map

/-- **The statistics** are those of the data section if the definitions are. -/
theorem describes_iff : Describes w.statistics (j.shown D) (groups (located file)).length ↔
      (schemasOf calls).length = ((j.shown D).filterMap McapRecord.schema?).length ∧
        (channelsOf calls).length = ((j.shown D).filterMap McapRecord.channel?).length := by
  have hdefinitions := h.shows.books.definitions
  have hmessages := h.shows.books.messages
  constructor
  · intro hdescribes
    rw [← hdefinitions.schemaCount, ← hdefinitions.channelCount]
    exact ⟨hdescribes.schemaCount, hdescribes.channelCount⟩
  · rintro ⟨hschemas, hchannels⟩
    constructor
    · rw [h.shown_messages, hmessages.messageCount]
    · rw [hdefinitions.schemaCount, hschemas]
    · rw [hdefinitions.channelCount, hchannels]
    · rw [h.shown_attachments, h.shows.books.attachmentCount]
    · rw [h.shown_metadata, h.shows.books.metadataCount]
    · rw [h.groups_located, h.shows.laid.indexed.chunkCount]
    · rw [hmessages.startTime, ← h.shown_messages]
      rfl
    · rw [hmessages.endTime, ← h.shown_messages]
      rfl
    · intro id
      rw [h.shown_messages, hmessages.counts]

end Wrote

/-! ## The condition -/

/-- A record of the summary is going to be written. -/
def Summarized (opts : WriterOptions) (w : Writer) : Prop :=
  (∃ g ∈ Writer.summaryGroups opts w, g.enabled = true ∧ g.records ≠ []) ∨
    (opts.indexTypes.chunk = true ∧ ∃ c, w.chunkBuilder = some c ∧ c.numMessages ≠ 0)

/-- **A writer that may be finished**: what waits in a chunk without messages is neither repeated
nor counted, nothing that waits in the record builder changes the checksum, and there is a summary
if there are to be offsets. -/
structure Careful (opts : WriterOptions) (w : Writer) : Prop where
  schemas : ∀ s, Waiting w (.schema s) → opts.repeatSchemas = false ∧ opts.useStatistics = false
  channels : ∀ c, Waiting w (.channel c) → opts.repeatChannels = false ∧ opts.useStatistics = false
  crc : opts.enableDataCrcs = true →
    zlibCrc32 w.recordBuilder.buffer w.dataSectionCrc = w.dataSectionCrc
  offsets : opts.useSummaryOffsets = true → Summarized opts w

/-- The records of a file are not too long for a reader. -/
def Admits (r : StreamReader) (file : Bytes) : Prop :=
  ∀ limit, r.recordSizeLimit = some limit → ∀ p ∈ recordsAt file, p.2.2.length ≤ limit

theorem none_behind_iff {α : Type} {front back all : List α} (hall : front ++ back = all)
    (hnodup : all.Nodup) (repeated counted : Bool) :
    ((∀ a, repeated = true ∧ a ∈ all → a ∈ front) ∧
      (counted = true → all.length = front.length)) ↔
        ∀ a ∈ back, repeated = false ∧ counted = false := by
  subst hall
  constructor
  · rintro ⟨hrepeated, hcounted⟩ a ha
    constructor
    · refine Bool.eq_false_iff.mpr fun htrue => ?_
      have hfront := hrepeated a ⟨htrue, List.mem_append_right _ ha⟩
      exact (List.nodup_append.mp hnodup).2.2 a hfront a ha rfl
    · refine Bool.eq_false_iff.mpr fun htrue => ?_
      have hlen := hcounted htrue
      rw [List.length_append] at hlen
      have hpos := List.length_pos_of_mem ha
      omega
  · intro hback
    constructor
    · rintro a ⟨htrue, ha⟩
      rcases List.mem_append.mp ha with ha | ha
      · exact ha
      · have hfalse := (hback a ha).1
        rw [htrue] at hfalse
        cases hfalse
    · intro htrue
      cases back with
      | nil => rw [List.append_nil]
      | cons a back =>
        have hfalse := (hback a List.mem_cons_self).2
        rw [htrue] at hfalse
        cases hfalse

theorem schema_mem_iff {s : Schema} {l : List McapRecord} :
    .schema s ∈ l ↔ s ∈ l.filterMap McapRecord.schema? := by
  rw [List.mem_filterMap]
  constructor
  · exact fun h => ⟨_, h, rfl⟩
  · rintro ⟨record, hmem, heq⟩
    cases record <;> cases heq
    exact hmem

theorem channel_mem_iff {c : Channel} {l : List McapRecord} :
    .channel c ∈ l ↔ c ∈ l.filterMap McapRecord.channel? := by
  rw [List.mem_filterMap]
  constructor
  · exact fun h => ⟨_, h, rfl⟩
  · rintro ⟨record, hmem, heq⟩
    cases record <;> cases heq
    exact hmem

section
variable {opts : WriterOptions} {C : Compressors} {D : Decompressors} {calls : List Call}
  {w w₁ w' : Writer} {r : StreamReader}

theorem summaryRecords_ne_nil : summaryRecords opts w ≠ [] ↔
    ∃ g ∈ Writer.summaryGroups opts w, g.enabled = true ∧ g.records ≠ [] := by
  rw [← flatMap_summaryGroups, Ne, List.flatMap_eq_nil_iff]
  unfold enabledGroups
  simp only [List.mem_filter, not_forall]
  constructor
  · rintro ⟨g, ⟨hg, henabled⟩, hne⟩
    exact ⟨g, hg, henabled, hne⟩
  · rintro ⟨g, hg, henabled, hne⟩
    exact ⟨g, ⟨hg, henabled⟩, hne⟩

theorem summarized_iff (h : Writer.finalizeChunk opts C w = .ok ((), w₁)) :
    summaryRecords opts w₁ ≠ [] ↔ Summarized opts w := by
  unfold Summarized
  rw [← summaryRecords_ne_nil]
  obtain ⟨_, _, hget, h⟩ := writing_bind h
  cases hget
  rcases hbuilder : w.chunkBuilder with _ | c
  · rw [hbuilder] at h
    cases h
    exact ⟨.inl, fun h => h.resolve_right fun ⟨_, c, hc, _⟩ => by cases hc⟩
  · rw [hbuilder] at h
    change (if c.numMessages = 0 then pure () else Writer.closeChunk opts C c : Writing Unit) w = _
      at h
    by_cases hzero : c.numMessages = 0
    · rw [if_pos hzero] at h
      cases h
      refine ⟨.inl, fun h => h.resolve_right fun ⟨_, c', hc', hne⟩ => ?_⟩
      cases hc'
      exact hne hzero
    · rw [if_neg hzero] at h
      obtain ⟨w₂, offsets, b, hbuild, -, w₃, rfl, rfl⟩ := closeChunk_eq_ok h
      obtain ⟨-, -, b', rfl, -⟩ := build_eq_ok (.chunk _) hbuild
      -- there is one index more, and the other groups are as they were
      cases hchunk : opts.indexTypes.chunk with
      | true =>
        refine ⟨fun _ => .inr ⟨rfl, c, rfl, hzero⟩, fun _ => ?_⟩
        unfold summaryRecords
        rw [hchunk]
        simp
      | false =>
        unfold summaryRecords
        simp [hchunk, Writer.flushed]

section
variable {j : Journal} {file : Bytes} {dataEnd footer : Written} {summary offsets : List Written}
  (h : Wrote opts D calls w j file dataEnd summary offsets footer)
include h

/-- The definitions of a file are sound if none of those that are left behind is repeated or
counted. -/
theorem Wrote.definitions_iff :
    ((∀ s, .schema s ∈ summaryRecords opts w → .schema s ∈ j.shown D) ∧
      (∀ c, .channel c ∈ summaryRecords opts w → .channel c ∈ j.shown D) ∧
      ∀ s, .statistics s ∈ summaryRecords opts w →
        Describes s (j.shown D) (groups (located file)).length) ↔
    (∀ s, .schema s ∈ j.inner.map Written.record →
        opts.repeatSchemas = false ∧ opts.useStatistics = false) ∧
      ∀ c, .channel c ∈ j.inner.map Written.record →
        opts.repeatChannels = false ∧ opts.useStatistics = false := by
  have hschemas := none_behind_iff
    ((h.filterMap_shown (f := McapRecord.schema?) fun _ => rfl).trans h.shows.given.schemas)
    h.nodup_schemas opts.repeatSchemas opts.useStatistics
  have hchannels := none_behind_iff
    ((h.filterMap_shown (f := McapRecord.channel?) fun _ => rfl).trans h.shows.given.channels)
    h.nodup_channels opts.repeatChannels opts.useStatistics
  simp only [schema_mem_summary, channel_mem_summary, statistics_mem_summary, h.values_schemas,
    h.values_channels]
  simp only [schema_mem_iff, channel_mem_iff]
  rw [← hschemas, ← hchannels]
  constructor
  · rintro ⟨hs, hc, hstatistics⟩
    have hdescribes := fun huse => h.describes_iff.mp (hstatistics _ ⟨huse, rfl⟩)
    exact ⟨⟨hs, fun huse => (hdescribes huse).1⟩, hc, fun huse => (hdescribes huse).2⟩
  · rintro ⟨⟨hs, hlen⟩, hc, hlen'⟩
    refine ⟨hs, hc, fun s hs => ?_⟩
    obtain ⟨huse, rfl⟩ := hs
    exact h.describes_iff.mpr ⟨hlen huse, hlen' huse⟩

theorem Wrote.admits_iff :
    Admits r file ↔ ∀ limit, r.recordSizeLimit = some limit →
      ∀ x ∈ j.data ++ dataEnd :: (summary ++ offsets ++ [footer]), x.body.length ≤ limit := by
  unfold Admits
  rw [h.file_eq, Written.allBytes_eq, recordsAt_frames Written.forall_framed]
  constructor
  · intro hadmits limit hlimit x hx
    have hmem := List.mem_map_of_mem (f := Written.framed) hx
    rw [← map_snd_positions frameSize 8 (List.map _ _)] at hmem
    obtain ⟨p, hp, hframed⟩ := List.mem_map.mp hmem
    have hle := hadmits limit hlimit p hp
    rwa [hframed] at hle
  · intro hall limit hlimit p hp
    obtain ⟨x, hx, hframed⟩ := List.mem_map.mp (snd_of_mem_positions _ hp)
    rw [← hframed]
    exact hall limit hlimit x hx

theorem Wrote.sound_iff (hr : Validating r)
    (hlimit : ∀ limit, r.recordSizeLimit = some limit →
      ∀ x ∈ j.data ++ dataEnd :: (summary ++ offsets ++ [footer]), x.body.length ≤ limit)
    (hcrc : opts.enableDataCrcs = true → w.dataSectionCrc = crc32 (MAGIC ++ allBytes j.data)) :
    Sound r D opts calls file ↔
      ((∀ s, .schema s ∈ j.inner.map Written.record →
          opts.repeatSchemas = false ∧ opts.useStatistics = false) ∧
        ∀ c, .channel c ∈ j.inner.map Written.record →
          opts.repeatChannels = false ∧ opts.useStatistics = false) ∧
      (opts.useSummaryOffsets = true → summaryRecords opts w ≠ []) := by
  have hnonzero : w.dataSectionCrc ≠ 0 → w.dataSectionCrc = crc32 (MAGIC ++ allBytes j.data) := by
    intro hne
    cases henabled : opts.enableDataCrcs with
    | true => exact hcrc henabled
    | false => exact absurd (h.shows.laid.tape.noCrc henabled) hne
  have hrecords := h.records hr hlimit hnonzero
  obtain ⟨hdata, hsummary⟩ := h.sections
    ((summary ++ offsets).map Written.record ++ [footer.record])
  rw [← h.definitions_iff, ← h.footer_iff]
  constructor
  · intro hsound
    have hschemas := hsound.schemas
    have hchannels := hsound.channels
    have hstatistics := hsound.statistics
    rw [hrecords, hdata, hsummary] at hschemas hchannels hstatistics
    exact ⟨⟨fun s hs => hschemas s ((h.mem_rest rfl rfl rfl).mpr hs),
      fun c hc => hchannels c ((h.mem_rest rfl rfl rfl).mpr hc),
      fun s hs => hstatistics s ((h.mem_rest rfl rfl rfl).mpr hs)⟩, hsound.footer⟩
  · rintro ⟨⟨hschemas, hchannels, hstatistics⟩, hfooter⟩
    constructor
    · rw [hrecords]
    · rw [hrecords, List.filterMap_append, h.shown_messages, h.filterMap_rest_nil
        (fun x hx => by cases x <;> first | rfl | cases hx) (fun _ => rfl), List.append_nil]
    · rw [hrecords, List.filterMap_append, h.shown_attachments, h.filterMap_rest_nil
        (fun x hx => hx.unindexed.attachment) (fun _ => rfl), List.append_nil]
    · rw [hrecords, List.filterMap_append, h.shown_metadata, h.filterMap_rest_nil
        (fun x hx => hx.unindexed.metadata) (fun _ => rfl), List.append_nil]
    · refine ⟨_, _, _, h.dataEnd_located, fun henabled => ?_⟩
      rw [h.take_eq, ← hcrc henabled]
    · rw [hrecords, hdata, hsummary]
      exact fun s hs => hschemas s ((h.mem_rest rfl rfl rfl).mp hs)
    · rw [hrecords, hdata, hsummary]
      exact fun c hc => hchannels c ((h.mem_rest rfl rfl rfl).mp hc)
    · rw [hrecords, hdata, hsummary]
      exact fun s hs => hstatistics s ((h.mem_rest rfl rfl rfl).mp hs)
    · rw [hrecords, hsummary, h.filterMap_rest (fun _ => rfl) (fun _ => rfl) (fun _ => rfl),
        summary_chunkIndexes, h.groups_located, h.shows.laid.indexed.chunkIndices]
    · rw [h.groups_located]
      exact h.shows.laid.indexed.sound
    · have hindexes := h.shows.laid.indexed.messageIndexes
      rw [← Written.map_record_placed 8, List.filterMap_map] at hindexes
      rw [List.filterMap_map, h.groups_located]
      exact (h.filterMap_located fun p hp => hp.messageIndex).trans hindexes
    · rw [hrecords, hsummary, h.filterMap_rest (fun _ => rfl) (fun _ => rfl) (fun _ => rfl),
        summary_attachmentIndexes, h.shows.laid.indexed.attachmentIndexes,
        h.filterMap_located fun p hp => by unfold attachmentIndexOf; rw [hp.attachment]; rfl]
      split <;> rfl
    · rw [hrecords, hsummary, h.filterMap_rest (fun _ => rfl) (fun _ => rfl) (fun _ => rfl),
        summary_metadataIndexes, h.shows.laid.indexed.metadataIndexes,
        h.filterMap_located fun p hp => by unfold metadataIndexOf; rw [hp.metadata]; rfl]
      split <;> rfl
    · exact hfooter

end

/-- **When the file of a writer is sound**: for all options and all calls, if the writer that is
finished is careful, and the reader admits the records of the file. -/
theorem writer_sound_iff (hinverse : Inverse C D) (hr : Validating r) {profile library : String}
    (hafter : Writer.after opts C profile library calls = .ok w)
    (hfinish : Writer.finish opts C w = .ok ((), w')) :
    Sound r D opts calls w'.stream ↔ Careful opts w ∧ Admits r w'.stream := by
  obtain ⟨havailable, j₀, hshows⟩ := shows_after hinverse hafter
  obtain ⟨w₁, j, dataEnd, summary, offsets, footer, hfinalize, hshows', hdataEnd, hfinished, hquiet,
    hwaiting, hcrc⟩ := finish_eq_ok hinverse havailable hshows hfinish
  have h : Wrote opts D calls w₁ j w'.stream dataEnd summary offsets footer :=
    ⟨hshows', hdataEnd, hfinished, hquiet⟩
  have hnoCrc := h.shows.laid.tape.noCrc
  constructor
  · intro hsound
    -- the checksum first, since a reader compares it
    have hchecked : opts.enableDataCrcs = true →
        w₁.dataSectionCrc = crc32 (MAGIC ++ allBytes j.data) := by
      intro henabled
      obtain ⟨offset, length, d, hd, hcrc⟩ := hsound.dataEnd
      rw [h.dataEnd_located] at hd
      cases hd
      have hcrc := hcrc henabled
      rw [h.take_eq] at hcrc
      exact UInt32.toNat_inj.mp hcrc
    have hlimit : ∀ limit, r.recordSizeLimit = some limit →
        ∀ x ∈ j.data ++ dataEnd :: (summary ++ offsets ++ [footer]), x.body.length ≤ limit := by
      intro limit hlimit x hx
      refine Nat.not_lt.mp fun hlong => ?_
      refine h.long hr ⟨x, hx, limit, hlimit, hlong⟩ (fun hne => ?_) hsound.reads
      cases henabled : opts.enableDataCrcs with
      | true => exact hchecked henabled
      | false => exact absurd (h.shows.laid.tape.noCrc henabled) hne
    obtain ⟨⟨hschemas, hchannels⟩, hsummary⟩ := (h.sound_iff hr hlimit hchecked).mp hsound
    refine ⟨⟨fun s hs => hschemas s ((hwaiting _).mpr hs),
      fun c hc => hchannels c ((hwaiting _).mpr hc), fun henabled =>
        (hcrc henabled).mp (hchecked henabled), fun huse =>
          (summarized_iff hfinalize).mp (hsummary huse)⟩, h.admits_iff.mpr hlimit⟩
  · rintro ⟨hcareful, hadmits⟩
    exact (h.sound_iff hr (h.admits_iff.mp hadmits)
      fun henabled => (hcrc henabled).mpr (hcareful.crc henabled)).mpr
        ⟨⟨fun s hs => hcareful.schemas s ((hwaiting _).mp hs),
          fun c hc => hcareful.channels c ((hwaiting _).mp hc)⟩,
          fun huse => (summarized_iff hfinalize).mpr (hcareful.offsets huse)⟩

end

/-! ## Two recordings -/

theorem exists_ok {ε α : Type} {x : Except ε α} {p : α → Bool} (h : x.toOption.any p = true) :
    ∃ a, x = .ok a ∧ p a = true := by
  cases x with
  | error e => cases h
  | ok a => exact ⟨a, rfl, h⟩

/-- No compression package is installed. -/
def noCompressors : Compressors := ⟨none, none⟩

/-- A reader that checks what it reads. -/
def strictReader : StreamReader where
  skipMagic := false
  emitChunks := false
  validateCrcs := true
  recordSizeLimit := none

/-- Chunks, all indexes and all of the summary, without checksums. -/
def indexedOptions : WriterOptions where
  chunkSize := 1048576
  compression := .none
  indexTypes := ⟨true, true, true, true⟩
  repeatChannels := true
  repeatSchemas := true
  useChunking := true
  useStatistics := true
  useSummaryOffsets := true
  enableCrcs := false
  enableDataCrcs := false

/-- A schema, a channel and a message. -/
def recording : List Call :=
  [.registerSchema "s" "e" [1], .registerChannel "t" "e" 1 ∅, .addMessage 1 5 [7] 6 0]

theorem inverse_none : Inverse noCompressors noDecompressors :=
  ⟨fun _ h => (by cases h), fun _ h => (by cases h)⟩

theorem writer_sound_recording :
    ∃ w w', Writer.after indexedOptions noCompressors "" "" recording = .ok w ∧
      Writer.finish indexedOptions noCompressors w = .ok ((), w') ∧
      Sound strictReader noDecompressors indexedOptions recording w'.stream := by
  obtain ⟨w, hafter, htest⟩ := exists_ok
    (x := Writer.after indexedOptions noCompressors "" "" recording)
    (p := fun w : Writer => w.chunkBuilder.any (fun c : ChunkBuilder => decide (c.numMessages = 1)) &&
      (Writer.finish indexedOptions noCompressors w).toOption.any fun _ => true)
    (by decide +kernel)
  obtain ⟨hchunk, hreturns⟩ := Bool.and_eq_true_iff.mp htest
  obtain ⟨⟨⟨⟩, w'⟩, hfinish, -⟩ := exists_ok hreturns
  have hwaiting : ∀ record, ¬ Waiting w record := by
    rintro record ⟨c, hc, hzero, -⟩
    rw [hc] at hchunk
    have hone : c.numMessages = 1 := of_decide_eq_true hchunk
    omega
  refine ⟨w, w', hafter, hfinish,
    (writer_sound_iff inverse_none ⟨rfl, rfl, rfl⟩ hafter hfinish).mpr
      ⟨⟨fun s hs => absurd hs (hwaiting _), fun c hc => absurd hc (hwaiting _),
        fun henabled => (by cases henabled), fun _ => .inl ?_⟩, fun limit h => (by cases h)⟩⟩
  exact ⟨⟨true, op.STATISTICS, [.statistics w.statistics]⟩, by simp [Writer.summaryGroups,
    indexedOptions], rfl, List.cons_ne_nil _ _⟩

/-- A schema that waits in a chunk without messages is repeated in the summary, and is nowhere else. -/
theorem waiting_schema_lost :
    ∃ w w', Writer.after indexedOptions noCompressors "" "" [.registerSchema "s" "e" [1]] = .ok w ∧
      Writer.finish indexedOptions noCompressors w = .ok ((), w') ∧
      ¬ Sound strictReader noDecompressors indexedOptions [.registerSchema "s" "e" [1]]
        w'.stream := by
  obtain ⟨w, hafter, htest⟩ := exists_ok
    (x := Writer.after indexedOptions noCompressors "" "" [.registerSchema "s" "e" [1]])
    (p := fun w : Writer => (Writer.finish indexedOptions noCompressors w).toOption.any fun x =>
      decide (.schema ⟨1, [1], "e", "s"⟩ ∈
        summarySection (strictReader.records noDecompressors x.2.stream).1) &&
      !decide (.schema ⟨1, [1], "e", "s"⟩ ∈
        dataSection (strictReader.records noDecompressors x.2.stream).1))
    (by decide +kernel)
  obtain ⟨⟨⟨⟩, w'⟩, hfinish, htest⟩ := exists_ok htest
  obtain ⟨hsummary, hdata⟩ := Bool.and_eq_true_iff.mp htest
  refine ⟨w, w', hafter, hfinish, fun hsound => ?_⟩
  have hmem := hsound.schemas _ (of_decide_eq_true hsummary)
  rw [decide_eq_true hmem] at hdata
  cases hdata

end Py
end Mcap

import Mcap.PyBooks

/-! # What `finish` of the Python library writes

Behind the records of the stream and of the record builder come the end of the data section, the
groups of the summary, their offsets and the footer.  `Finished` says what they are, in terms of the
writer at that moment; `finish_eq_ok` that a call of `finish` that returns has written them.
-/
namespace Mcap
namespace Py

open Written (allBytes placed)

/-- **Records that are written one after the other.** -/
theorem forM_write_eq_ok {records : List McapRecord} {b b' : RecordBuilder}
    (h : (records.forM McapRecord.write : Building) b = .ok ((), b')) :
    ∃ l : List Written, l.map Written.record = records ∧ b'.buffer = b.buffer ++ allBytes l := by
  induction records generalizing b with
  | nil =>
    cases h
    exact ⟨[], rfl, (List.append_nil _).symm⟩
  | cons record records ih =>
    change (record.write >>= fun _ => records.forM McapRecord.write) b = _ at h
    obtain ⟨b₁, hrecord, hrest⟩ := bind_eq_ok h
    obtain ⟨x, hx, hbuffer, -⟩ := write_eq_ok record hrecord
    obtain ⟨l, hl, hbuffer'⟩ := ih hrest
    refine ⟨x :: l, by rw [List.map_cons, hx, hl], ?_⟩
    rw [hbuffer', hbuffer, Written.allBytes_cons, List.append_assoc]

/-- The groups that are written. -/
def enabledGroups (groups : List Writer.SummaryGroup) : List Writer.SummaryGroup :=
  groups.filter Writer.SummaryGroup.enabled

theorem writeGroups_eq_ok {start : Nat} {groups : List Writer.SummaryGroup}
    {offsets offsets' : List SummaryOffset} {b b' : RecordBuilder}
    (h : Writer.writeGroups start groups offsets b = .ok (offsets', b')) :
    ∃ l : List Written, l.map Written.record =
        (enabledGroups groups).flatMap Writer.SummaryGroup.records ∧
      b'.buffer = b.buffer ++ allBytes l ∧
      offsets'.length = offsets.length + (enabledGroups groups).length := by
  induction groups generalizing offsets b with
  | nil =>
    cases h
    exact ⟨[], rfl, (List.append_nil _).symm, rfl⟩
  | cons g groups ih =>
    unfold Writer.writeGroups at h
    cases henabled : g.enabled with
    | false =>
      rw [henabled, if_neg Bool.false_ne_true] at h
      obtain ⟨l, hl, hbuffer, hlen⟩ := ih h
      have hfilter : enabledGroups (g :: groups) = enabledGroups groups :=
        List.filter_cons_of_neg (by rw [henabled]; exact Bool.false_ne_true)
      rw [hfilter]
      exact ⟨l, hl, hbuffer, hlen⟩
    | true =>
      rw [henabled, if_pos rfl] at h
      have hfilter : enabledGroups (g :: groups) = g :: enabledGroups groups :=
        List.filter_cons_of_pos henabled
      obtain ⟨⟨⟨⟩, b₁⟩, hrecords, h⟩ := Mcap.bind_eq_ok h
      obtain ⟨l, hl, hbuffer⟩ := forM_write_eq_ok hrecords
      obtain ⟨l', hl', hbuffer', hlen⟩ := ih h
      refine ⟨l ++ l', ?_, ?_, ?_⟩
      · rw [List.map_append, hl, hl', hfilter, List.flatMap_cons]
      · rw [hbuffer', hbuffer, Written.allBytes_append, List.append_assoc]
      · rw [hlen, hfilter]
        simp only [List.length_append, List.length_cons, List.length_nil]
        omega

/-- **The file of a writer**: the records of the data section, the end of that section, the groups of
the summary, their offsets and the footer. -/
structure Finished (opts : WriterOptions) (w : Writer) (file : Bytes) (data : List Written)
    (dataEnd : Written) (summary offsets : List Written) (footer : Written) : Prop where
  file_eq : file = MAGIC ++
    (allBytes (data ++ dataEnd :: (summary ++ (offsets ++ [footer]))) ++ MAGIC)
  summary_eq : summary.map Written.record =
    (enabledGroups (Writer.summaryGroups opts w)).flatMap Writer.SummaryGroup.records
  offsets_eq : ∃ os : List SummaryOffset, offsets.map Written.record = os.map .summaryOffset ∧
    os.length = if opts.useSummaryOffsets then
      (enabledGroups (Writer.summaryGroups opts w)).length else 0
  footer_eq : ∃ crc, footer.record = .footer
    { summaryStart := if (summary ++ offsets).length = 0 then 0
        else (MAGIC ++ allBytes (data ++ [dataEnd])).length
      summaryOffsetStart := if opts.useSummaryOffsets
        then (MAGIC ++ allBytes (data ++ dataEnd :: summary)).length else 0
      summaryCrc := crc }

section
variable {opts : WriterOptions} {C : Compressors} {D : Decompressors} {w w' : Writer}
  {j : Journal} {calls : List Call}

theorem length_allBytes_eq_zero {l : List Written} : (allBytes l).length = 0 ↔ l.length = 0 := by
  have hle := Written.length_le_allBytes l
  constructor
  · intro h
    omega
  · intro h
    rw [List.eq_nil_of_length_eq_zero h]
    rfl

theorem writeOffsets_eq_ok {offsets : List SummaryOffset} {b b' : RecordBuilder}
    (h : Writer.writeOffsets opts offsets b = .ok b') :
    ∃ l : List Written, l.map Written.record =
        (if opts.useSummaryOffsets then offsets else []).map .summaryOffset ∧
      b'.buffer = b.buffer ++ allBytes l := by
  unfold Writer.writeOffsets at h
  cases huse : opts.useSummaryOffsets with
  | false =>
    rw [huse, if_neg Bool.false_ne_true] at h
    cases h
    exact ⟨[], rfl, (List.append_nil _).symm⟩
  | true =>
    rw [huse, if_pos rfl] at h
    change (((offsets.map McapRecord.summaryOffset).forM McapRecord.write : Building) b).bind _ = _
      at h
    rcases hwrite : ((offsets.map McapRecord.summaryOffset).forM McapRecord.write : Building) b with
      e | ⟨⟨⟩, b₁⟩
    · rw [hwrite] at h
      cases h
    · rw [hwrite] at h
      cases h
      exact forM_write_eq_ok hwrite

/-- **What is behind the data section.** -/
theorem writeSummary_eq_ok {data : List Written} {dataEnd : Written}
    (htape : Tape opts w (data ++ [dataEnd]) [])
    (h : Writer.writeSummary opts w = .ok ((), w')) :
    ∃ summary offsets footer, Finished opts w w'.stream data dataEnd summary offsets footer := by
  obtain ⟨_, w₀, hget, h⟩ := writing_bind h
  cases hget
  obtain ⟨⟨os, b⟩, w₁, hgroups, h⟩ := writing_bind h
  obtain ⟨hgroups', rfl⟩ := writing_lift hgroups
  obtain ⟨b', w₂, hoffsets, h⟩ := writing_bind h
  obtain ⟨hoffsets', rfl⟩ := writing_lift hoffsets
  obtain ⟨crc, w₃, hcrc, h⟩ := writing_bind h
  obtain ⟨-, rfl⟩ := writing_lift hcrc
  obtain ⟨_, w₄, hwrite, h⟩ := writing_bind h
  cases hwrite
  obtain ⟨_, w₅, hbuild, h⟩ := writing_bind h
  obtain ⟨_, w₆, hflush, hmagic⟩ := writing_bind h
  cases hflush
  cases hmagic
  obtain ⟨footer, hfooter, b₁, rfl, hb₁⟩ := build_eq_ok (.footer _) hbuild
  obtain ⟨summary, hsummary, hbuffer, hlen⟩ := writeGroups_eq_ok hgroups'
  obtain ⟨offsets, hos, hbuffer'⟩ := writeOffsets_eq_ok hoffsets'
  have hdata : b'.buffer = allBytes (summary ++ offsets) := by
    rw [hbuffer', hbuffer, Written.allBytes_append]
    rfl
  refine ⟨summary, offsets, footer, ?_, hsummary, ⟨_, hos, ?_⟩, ⟨crc.toNat, ?_⟩⟩
  · show w₃.stream ++ b'.buffer ++ b₁.buffer ++ MAGIC = _
    rw [hdata, hb₁]
    show w₃.stream ++ allBytes (summary ++ offsets) ++ (w₃.recordBuilder.buffer ++ footer.bytes) ++
      MAGIC = _
    rw [htape.stream, htape.buffer]
    simp
  · split
    · rw [hlen]
      exact Nat.zero_add _
    · rfl
  · rw [hfooter]
    have hstart : (MAGIC ++ allBytes (data ++ [dataEnd])).length = w₃.stream.length := by
      rw [htape.stream]
    have hcount : w₃.stream.length + b.count = (MAGIC ++ allBytes (data ++ dataEnd :: summary)).length := by
      show w₃.stream.length + b.buffer.length = _
      rw [hbuffer, htape.stream]
      simp [RecordBuilder.new]
      omega
    rw [hstart, ← hcount]
    show McapRecord.footer ⟨if b'.buffer.length = 0 then 0 else w₃.stream.length, _, _⟩ = _
    rw [hdata]
    simp only [length_allBytes_eq_zero]

/-- What is left in an open chunk without messages. -/
def Waiting (w : Writer) (record : McapRecord) : Prop :=
  ∃ c, w.chunkBuilder = some c ∧ c.numMessages = 0 ∧
    ∃ records, breakup c.recordWriter.buffer = .ok records ∧ record ∈ records

/-- **A call of `finish` that returns** has written the records in flight, but for those of an open
chunk without messages. -/
theorem finish_eq_ok (hinverse : Inverse C D) (havailable : Available opts C)
    (h : Shows opts D w j calls) (hrun : Writer.finish opts C w = .ok ((), w')) :
    ∃ w₁ j₁ dataEnd summary offsets footer, Writer.finalizeChunk opts C w = .ok ((), w₁) ∧
      Shows opts D w₁ j₁ calls ∧ dataEnd.record = .dataEnd ⟨w₁.dataSectionCrc.toNat⟩ ∧
      Finished opts w₁ w'.stream (j₁.flushed ++ j₁.pending) dataEnd summary offsets footer ∧
      logTimes (j₁.inner.map Written.record) = [] ∧
      (∀ record, record ∈ j₁.inner.map Written.record ↔ Waiting w record) ∧
      (opts.enableDataCrcs = true → (w₁.dataSectionCrc =
          crc32 (MAGIC ++ allBytes (j₁.flushed ++ j₁.pending)) ↔
        zlibCrc32 w.recordBuilder.buffer w.dataSectionCrc = w.dataSectionCrc)) := by
  obtain ⟨⟨⟩, w₁, hfinalize, hrest⟩ := writing_bind hrun
  obtain ⟨j₁, honward, hquiet, hcases⟩ := h.laid.finalizeChunk hinverse havailable hfinalize
  have hshows : Shows opts D w₁ j₁ calls :=
    ⟨honward.laid, honward.held ▸ h.given, h.books.congr honward.books⟩
  obtain ⟨_, w₂, hget, hrest⟩ := writing_bind hrest
  cases hget
  obtain ⟨_, w₃, hbuild, hrest⟩ := writing_bind hrest
  obtain ⟨_, w₄, hflush, hsummary⟩ := writing_bind hrest
  cases hflush
  obtain ⟨dataEnd, hdataEnd, b, rfl, hb⟩ := build_eq_ok (.dataEnd _) hbuild
  have htape := (hshows.laid.tape.build hb).flush
  rw [← List.append_assoc] at htape
  obtain ⟨summary, offsets, footer, hfinished⟩ := writeSummary_eq_ok htape hsummary
  refine ⟨w₁, j₁, dataEnd, summary, offsets, footer, hfinalize, hshows, hdataEnd,
    ⟨hfinished.file_eq, hfinished.summary_eq, hfinished.offsets_eq, hfinished.footer_eq⟩, hquiet,
    fun record => ?_, fun henabled => ?_⟩
  · rcases hcases with ⟨c, hc, hne, hnil, -⟩ | ⟨rfl, rfl, hzero⟩
    · rw [hnil]
      refine ⟨fun hmem => absurd hmem List.not_mem_nil, fun ⟨c', hc', hzero, _⟩ => ?_⟩
      rw [hc] at hc'
      cases hc'
      exact absurd hzero hne
    · rcases hbuilder : w₁.chunkBuilder with _ | c
      · rw [(hshows.laid.chunkBuilder_eq_none hbuilder).2]
        refine ⟨fun hmem => absurd hmem List.not_mem_nil, fun ⟨c', hc', _⟩ => ?_⟩
        rw [hbuilder] at hc'
        cases hc'
      · obtain ⟨-, -, hholds⟩ := hshows.laid.chunkBuilder_eq_some hbuilder
        have hbreakup := breakup_allBytes hholds.inChunk
        rw [← hholds.buffer] at hbreakup
        constructor
        · exact fun hmem => ⟨c, hbuilder, hzero c hbuilder, _, hbreakup, hmem⟩
        · rintro ⟨c', hc', -, records, hrecords, hmem⟩
          rw [hbuilder] at hc'
          cases hc'
          rw [hbreakup] at hrecords
          cases hrecords
          exact hmem
  · rcases hcases with ⟨c, hc, -, -, hpending⟩ | ⟨rfl, rfl, -⟩
    · have hbuffer := h.laid.tape.buffer
      rw [(h.laid.chunkBuilder_eq_some hc).2.1] at hbuffer
      rw [hpending, List.append_nil, hbuffer, ← hshows.laid.tape.stream]
      refine ⟨fun _ => ?_, fun _ => hshows.laid.tape.crc henabled⟩
      show ~~~ (~~~ w.dataSectionCrc) = _
      exact UInt32.not_not
    · rw [Written.allBytes_append, ← List.append_assoc, ← zlibCrc32_crc32,
        ← hshows.laid.tape.stream, ← hshows.laid.tape.crc henabled, ← hshows.laid.tape.buffer]
      exact eq_comm

end

end Py
end Mcap

import Mcap.GoReadBack
import Mcap.IntactInput
import Mcap.TsIndexes

/-! # Files of the other libraries, read in Rust

The libraries write one format, each with its own code.  Every driver of the Rust reader comes to the end
of a file of `Sections`, with both checksums, and is given its records.  The files of the Go library and
of the TypeScript library are such files, whatever is written with whichever options.
-/
namespace Mcap

/-! ## The sections of a file -/

/-- A data section, a summary and a footer between the magics, with the right checksums or none. -/
structure Sections (file : Bytes) (data summary : List (UInt8 × Bytes)) (d : DataEnd) (f : Footer) :
    Prop where
  file_eq : file = MAGIC ++ (frames data ++ (frame op.DATA_END d.bytes ++ (frames summary ++
    (frame op.FOOTER f.bytes ++ MAGIC))))
  inner : ∀ r ∈ data ++ summary, r.1 ≠ op.DATA_END ∧ r.1 ≠ op.FOOTER
  dataCrc : d.dataSectionCrc = 0 ∨ d.dataSectionCrc = crc32 (MAGIC ++ frames data)
  summaryCrc : f.summaryCrc = 0 ∨ f.summaryCrc = crc32 (frames summary ++
    (op.FOOTER :: le 8 f.bytes.length ++ (u64 f.summaryStart ++ u64 f.summaryOffsetStart)))

/-- The records of such a file. -/
def sectionRows (data summary : List (UInt8 × Bytes)) (d : DataEnd) (f : Footer) :
    List (UInt8 × Bytes) :=
  data ++ ((op.DATA_END, d.bytes) :: (summary ++ [(op.FOOTER, f.bytes)]))

/-- A reader of whole files that hands chunks out whole; it may compare the checksums of the sections. -/
def wholeChunks (ro : LinearReaderOptions) : LinearReaderOptions :=
  { ro with emitChunks := true, recordLengthLimit := none, skipStartMagic := false }

section
variable {δ : Type} {D : Decompressor δ} {ro : LinearReaderOptions}
  {Δ : Decoding D (wholeChunks ro).recordLengthLimit} {file : Bytes} {data summary : List (UInt8 × Bytes)}
  {d : DataEnd} {f : Footer}

theorem yields_frames {rows : List (UInt8 × Bytes)}
    (h : ∀ r ∈ rows, r.1 ≠ op.DATA_END ∧ r.1 ≠ op.FOOTER) (hlen : (frames rows).length ≤ USIZE_MAX)
    (rest : Bytes) (hasher : Option Hasher) : Yields Δ ⟨.fileRecord, frames rows ++ rest, hasher⟩ rows
      ⟨.fileRecord, rest, Spec.absorb hasher (frames rows)⟩ := by
  induction rows generalizing hasher with
  | nil =>
    rw [frames_nil, Spec.absorb_nil]
    exact .refl _
  | cons r rows ih =>
    obtain ⟨⟨hend, hfoot⟩, hrows⟩ := List.forall_mem_cons.mp h
    rw [frames_cons, List.length_append] at hlen
    have hrow : Yields Δ ⟨.fileRecord, frame r.1 r.2 ++ (frames rows ++ rest), hasher⟩ [(r.1, r.2)]
        ⟨.fileRecord, frames rows ++ rest, Spec.absorb hasher (frame r.1 r.2)⟩ :=
      yields_record (fun _ => rfl) hend hfoot (by omega) (admits_of_none rfl _)
    rw [frames_cons, List.append_assoc, ← Spec.absorb_absorb]
    exact hrow.trans (ih hrows (by omega) _)

/-- **A file of sections is read to its end**, and its records are yielded. -/
theorem Sections.observes (h : Sections file data summary d f) (hlen : file.length ≤ USIZE_MAX) :
    Observes D (.newWithOptions (wholeChunks ro)) file (sectionRows data summary d f) .finished := by
  refine observes_of_parses ?_ (sim_init (noDecoding D _) file)
  obtain ⟨rfl, hinner, hdataCrc, hsummaryCrc⟩ := h
  obtain ⟨hdata, hsummary⟩ := List.forall_mem_append.mp hinner
  simp only [List.length_append] at hlen
  refine .again (turn_startMagic_append rfl _ _) ((yields_frames hdata (by omega) _ _).parses ?_)
  refine (yields_dataEnd (admits_of_none rfl _) (fun hasher hh => ?_) _).parses
    ((yields_frames hsummary (by omega) _ _).parses
      (parses_footer_magic (admits_of_none rfl _) fun hasher hh => ?_))
  · rw [Spec.absorb_absorb] at hh
    split at hh
    · cases hh
      exact hdataCrc
    · cases hh
  · split at hh
    · cases hh
      exact hsummaryCrc
    · cases hh

end

/-! ## Files of the Go library -/

namespace Go

theorem hashed_finalize (computeCRC : Bool) (bytes : Bytes) :
    (hashed computeCRC bytes).finalize = 0 ∨ (hashed computeCRC bytes).finalize = crc32 bytes := by
  cases computeCRC with
  | false => exact .inl (show crc32 [] = 0 by decide)
  | true => exact .inr rfl

theorem sections_file {κ : Type} (o : WriterOptions κ) (hmagic : o.skipMagic = false) (header : Header)
    (es : List Entry) (w : Writer κ) : ∃ summary d f,
      Mcap.Sections (fileBytes o header es w) (dataFrames o header es) summary d f := by
  obtain ⟨pos, hpos⟩ : ∃ pos, pos = (dataSection o header es).length := ⟨_, rfl⟩
  have hone : ∀ r : UInt8 × Bytes, frames [r] = frame r.1 r.2 := fun r => List.append_nil _
  have hdata : dataBytes o header es = MAGIC ++ frames (dataFrames o header es) := by
    rw [dataBytes_eq, lead, hmagic]
    rfl
  refine ⟨groupRecords w.groups ++ w.offsetRecords pos,
    ⟨(hashed o.includeCRC (MAGIC ++ frames (dataFrames o header es))).finalize⟩,
    ⟨.ofNat (if w.groups.isEmpty then 0 else pos), .ofNat (if w.opts.skipSummaryOffsets then 0
      else pos + (frames (groupRecords w.groups)).length), (hashed w.opts.includeCRC
        (summarySection w pos ++ (op.FOOTER :: (le 8 (8 + 8 + 4) ++ footerFields w pos)))).finalize⟩,
    ?_, fun r hr => ?_, hashed_finalize _ _, hashed_finalize _ _⟩
  · rw [fileBytes, ← hpos, dataSection, hone, hone, dataEndRecord, hdata]
    simp only [List.append_assoc]
    rfl
  · rcases List.mem_append.mp hr with hr | hr
    · have hmem := opcode_dataFrames hr
      exact ⟨fun h => absurd (h ▸ hmem) (by decide), fun h => absurd (h ▸ hmem) (by decide)⟩
    · have hmem := mem_summary hr
      exact ⟨fun h => absurd (h ▸ hmem) (by decide), fun h => absurd (h ▸ hmem) (by decide)⟩

section
variable {δ : Type} {D : Mcap.Decompressor δ} {ro : LinearReaderOptions} {κ : Type}
  [ResettableWriteCloser κ] [Packages κ] {opts : WriterOptions κ} {header : Header} {calls : List Call}
  {w : Writer κ}

/-- **The Rust library reads what the Go library wrote**: the records of all calls, with the schemas,
channels and messages in the order of the calls. -/
theorem rust_reads_go (hwrite : writeFile opts header calls = .ok w) (hmagic : opts.skipMagic = false)
    (hlen : w.w.out.length ≤ USIZE_MAX) :
    ∃ (o : WriterOptions κ) (es : List Entry) (summary : List (UInt8 × Bytes)) (d : Mcap.DataEnd)
      (f : Mcap.Footer), Settled opts o ∧ Observes D (.newWithOptions (wholeChunks ro)) w.w.out
        (sectionRows (headerRecord o header :: es.flatMap (Entry.records o)) summary d f) .finished ∧
      (es.flatMap Entry.flat).Perm calls ∧
      (es.flatMap Entry.flat).filter Call.inChunk = calls.filter Call.inChunk := by
  obtain ⟨w₀, hwritten, hclose⟩ := written_of_writeFile hwrite
  obtain ⟨w₁, es, hsettled, hfin, hout⟩ := hwritten.finished hclose
  obtain ⟨summary, d, f, hsections⟩ := sections_file w₁.opts (hsettled.skipMagic.trans hmagic) header es w₁
  rw [← hout] at hsections
  exact ⟨w₁.opts, es, summary, d, f, hsettled, hsections.observes hlen, hfin.perm, hfin.ordered⟩

end

/-- The file of two messages, read with both checksums. -/
theorem rust_reads_go_twoTimes : ∃ (w : Writer Plain) (evs : List (UInt8 × Bytes)),
    writeFile smallChunks ⟨[], []⟩ twoTimes = .ok w ∧
      Observes storedLz4 (.newWithOptions (wholeChunks
        { validateDataSectionCrc := true, validateSummarySectionCrc := true })) w.w.out evs .finished := by
  have hrun : ((writeFile smallChunks ⟨[], []⟩ twoTimes).toOption.map
      fun w => decide (w.w.out.length < 2000)) = some true := by decide +kernel
  rcases hw : writeFile smallChunks ⟨[], []⟩ twoTimes with e | w
  · rw [hw] at hrun
    cases hrun
  · rw [hw] at hrun
    have hlen : w.w.out.length < 2000 := of_decide_eq_true (Option.some.inj hrun)
    obtain ⟨_, _, _, _, _, -, hobserves, -⟩ := rust_reads_go hw rfl
      (Nat.le_trans (Nat.le_of_lt hlen) (by decide))
    exact ⟨w, _, rfl, hobserves⟩

end Go

/-! ## Files of the TypeScript library -/

namespace Ts

section
variable {δ : Type} {options : McapWriterOptions}

theorem u32_ofNat (n : Nat) : u32 (.ofNat n) = le 4 n := by
  rw [u32, UInt32.toNat_ofNat', show 2 ^ 32 = 256 ^ 4 from rfl, le_mod]

/-- The opcode and the body. -/
def TypedMcapRecord.row (r : TypedMcapRecord) : UInt8 × Bytes := (r.opcode, r.body)

theorem frames_rows (l : List TypedMcapRecord) : frames (l.map TypedMcapRecord.row) = recordBytes l :=
  List.flatMap_map ..

theorem opcode_listed {i : Item} (h : i.Listed options) :
    i.record.opcode ≠ op.DATA_END ∧ i.record.opcode ≠ op.FOOTER := by
  unfold Item.Listed at h
  generalize i.record = r at h ⊢
  cases r <;> first | exact absurd h.1 id | (simp only [TypedMcapRecord.opcode]; decide)

theorem opcode_summary {w : McapWriter} {r : TypedMcapRecord}
    (h : r ∈ recordsOf (sectionsOf options w)) : r.opcode ≠ op.DATA_END ∧ r.opcode ≠ op.FOOTER := by
  obtain ⟨s, hs, hr⟩ := List.mem_flatMap.mp h
  rw [(sectionsOf_opcode options w).1 s hs r hr]
  unfold sectionsOf at hs
  simp only [List.mem_append, List.mem_map, List.mem_ite_nil_right, List.mem_singleton] at hs
  rcases hs with ((((⟨-, rfl⟩ | ⟨-, rfl⟩) | ⟨x, -, rfl⟩) | ⟨x, -, rfl⟩) | ⟨x, -, rfl⟩) | ⟨x, -, rfl⟩
  all_goals
    dsimp only
    decide

/-- **The Rust library reads what the TypeScript library wrote**, whatever the options and the calls
are. -/
theorem rust_reads_ts (D : Decompressor δ) (ro : LinearReaderOptions) (options : McapWriterOptions)
    (header : Header) (calls : List Call) : ∃ (p : Parts) (d : Mcap.DataEnd) (f : Mcap.Footer),
      McapWriter.fileOf options header calls = .ok (p.bytes MAGIC) ∧
      ((p.bytes MAGIC).length ≤ USIZE_MAX →
        Observes D (.newWithOptions (wholeChunks ro)) (p.bytes MAGIC) (sectionRows
          ((p.items.map Item.record).map TypedMcapRecord.row) ((recordsOf p.groups ++
            p.offsets.map TypedMcapRecord.summaryOffset).map TypedMcapRecord.row) d f) .finished) := by
  obtain ⟨w, hstart, hregistered, hlaid, -, hcrc⟩ := start_spec options header
  obtain ⟨-, more, pending, inner, hlaid', -⟩ := hlaid.performAll calls hregistered
  obtain ⟨more', inner', hlaid'', -⟩ := hlaid'.dataWritten
  obtain ⟨p, hwritable, hended, hitems, hgroups, hdataCrc⟩ := end_spec hlaid''.tape
    ((performAll_keeps options calls w).2.trans hcrc)
  refine ⟨p, ⟨.ofNat p.dataEnd.dataSectionCrc⟩, ⟨.ofNat p.footer.summaryStart,
    .ofNat p.footer.summaryOffsetStart, .ofNat p.footer.summaryCrc⟩, ?_, fun hlen =>
    Mcap.Sections.observes ⟨?_, fun r hr => ?_, .inr ?_, .inr ?_⟩ hlen⟩
  · unfold McapWriter.fileOf
    rw [hstart]
    exact congrArg Except.ok hwritable
  · rw [frames_rows, frames_rows, DataEnd.bytes, Footer.bytes, u32_ofNat, u32_ofNat,
      Go.u64_ofNat, Go.u64_ofNat]
    unfold Parts.bytes Parts.front Parts.summary Parts.back
    simp only [recordBytes_append, List.append_assoc]
    rfl
  · rcases List.mem_append.mp hr with hr | hr
    · obtain ⟨record, hrecord, rfl⟩ := List.mem_map.mp hr
      obtain ⟨i, hi, rfl⟩ := List.mem_map.mp hrecord
      exact opcode_listed (hlaid''.chunked.listed i (hitems ▸ hi))
    · obtain ⟨record, hrecord, rfl⟩ := List.mem_map.mp hr
      rcases List.mem_append.mp hrecord with hrecord | hrecord
      · exact opcode_summary (hgroups ▸ hrecord)
      · obtain ⟨x, -, rfl⟩ := List.mem_map.mp hrecord
        exact ⟨show Opcode.SUMMARY_OFFSET ≠ _ by decide, show Opcode.SUMMARY_OFFSET ≠ _ by decide⟩
  · rw [frames_rows, hdataCrc, hitems]
    exact UInt32.ofNat_toNat ..
  · rw [frames_rows, hended.summaryCrc, recordBytes_append, Footer.bytes, Go.u64_ofNat, Go.u64_ofNat,
      List.append_assoc]
    exact UInt32.ofNat_toNat ..

end

end Ts

end Mcap

import Mcap.FinishedFile
import Mcap.IntactInput

/-! # Reading the file of a writer

The file that `finish` leaves behind is intact input for the reader.  `fileRecords` are the
records it holds, those of the chunks one by one, and `file_parses` says that the reader
yields them and finishes, whichever checksums it validates: those of the chunks and of the
summary section are always right, and that of the data section is a hypothesis.

The encoders and the decompressors are outside the repository.  `Lossless` is what is assumed
of them: what an encoder emits is unpacked to what has gone in.
-/
namespace Mcap

/-! ## Lossless codecs -/

section
variable {σ : Type} [Encoders σ] {δ : Type} {D : Decompressor δ} {limit : Option Nat}

/-- The compressor has taken `data` in pieces and has emitted `out`. -/
inductive Coder.Took (compression : Option Compression) (level threads : UInt32) :
    Bytes → Coder σ → Bytes → Prop
  | start {coder out} : Coder.start compression level threads = .ok (coder, out) →
      Took compression level threads [] coder out
  | push {data coder out b coder' x} : Took compression level threads data coder out →
      coder.push b = .ok (coder', x) → Took compression level threads (data ++ b) coder' (out ++ x)

variable (σ) in
/-- **The codecs are lossless**: what an encoder has emitted by the end is unpacked to what
has gone in, and there is a decompressor for lz4. -/
structure Lossless (Δ : Decoding D limit) : Prop where
  unpacks : ∀ {compression level threads data out x} {coder : Coder σ},
    compression ≠ none → Coder.Took compression level threads data coder out →
    coder.finish = .ok x → Unpacks Δ (compressionName compression) (out ++ x) data
  lz4 : ∃ d, D.newLz4 = .ok d

theorem content_eq_frames (records : List Record) : content records = frames (records.map Record.raw) := by
  induction records with
  | nil => rfl
  | cons r rs ih =>
    show r.frame ++ content rs = frame r.raw.1 r.raw.2 ++ frames (rs.map Record.raw)
    rw [ih]
    rfl

theorem Coder.Ran.took {o : WriteOptions} {records : List Record} {coder : Coder σ} {out : Bytes}
    (h : Coder.Ran σ o records coder out) :
    Coder.Took o.compression o.compressionLevel o.compressionThreads (content records) coder out := by
  induction h with
  | start hs => exact .start hs
  | @push records r coder coder' out x _ hp ih =>
    rw [content_append, content_singleton]
    exact ih.push hp

theorem Coder.Took.plain {level threads : UInt32} {data out : Bytes} {coder : Coder σ}
    (h : Coder.Took none level threads data coder out) : coder = .null ∧ out = data := by
  induction h with
  | start hs =>
    cases hs
    exact ⟨rfl, rfl⟩
  | push _ hp ih =>
    obtain ⟨rfl, rfl⟩ := ih
    cases hp
    exact ⟨rfl, rfl⟩

theorem compressionName_eq_empty {compression : Option Compression} :
    compressionName compression = "" ↔ compression = none := by
  rcases compression with _ | (_ | _) <;> simp [compressionName]

theorem available_compressionName {Δ : Decoding D limit} (hl : Lossless σ Δ)
    (compression : Option Compression) :
    Spec.available D (compressionName compression) = .ok () := by
  obtain ⟨d, hd⟩ := hl.lz4
  rcases compression with _ | (_ | _)
  · rfl
  · rfl
  · rw [Spec.available, if_neg (by decide), if_pos (by decide), hd]
    rfl

/-- **A chunk of the writer is intact.** -/
theorem chunkIntact_closed {ro : LinearReaderOptions} {Δ : Decoding D ro.recordLengthLimit}
    (hl : Lossless σ Δ) {o : WriteOptions} {records : List Record} {out : Bytes}
    (hp : Packs σ o records out) (hout : out.length < 2 ^ 64)
    (hcontent : (content records).length < 2 ^ 64) :
    ChunkIntact Δ (chunkHeader o records out) out (content records) := by
  obtain ⟨coder, emitted, x, hran, hfin, rfl⟩ := hp
  refine ⟨⟨?_, ?_, available_compressionName hl _, ?_, ?_⟩, ?_⟩
  · show StringFits (compressionName o.compression)
    rcases o.compression with _ | (_ | _) <;> decide
  · simp only [chunkHeader, UInt64.toNat_ofNat']
    exact Nat.mod_eq_of_lt hout
  · intro hname
    have htook := hran.took
    rw [compressionName_eq_empty.mp hname] at htook
    obtain ⟨rfl, rfl⟩ := htook.plain
    cases hfin
    exact List.append_nil _
  · intro hname
    constructor
    · simp only [chunkHeader, UInt64.toNat_ofNat']
      exact Nat.mod_eq_of_lt hcontent
    · exact hl.unpacks (fun hnone => hname (compressionName_eq_empty.mpr hnone)) hran.took hfin
  · simp only [chunkHeader]
    split
    · exact .inr rfl
    · exact .inl rfl

end

/-! ## The records of a file -/

/-- The reader yields the record as it stands. -/
def Record.Plain (r : Record) : Prop :=
  r.opcode ≠ op.CHUNK ∧ r.opcode ≠ op.DATA_END ∧ r.opcode ≠ op.FOOTER

theorem Ledger.Allows.plain {l : Ledger} {r : Record} (h : l.Allows r) : r.Plain := by
  cases r with
  | unknown opcode data =>
    have hop : (0x80 : UInt8) ≤ opcode := h
    refine ⟨?_, ?_, ?_⟩
    all_goals
      intro heq
      rw [show opcode = _ from heq] at hop
      exact absurd hop (by decide)
  | header | schema | channel | message | attachment | metadata =>
    simp only [Record.Plain, Record.opcode]
    decide
  | _ => exact h.elim

theorem Ledger.AllowsAll.plain {l : Ledger} {rs : List Record} (h : l.AllowsAll rs) :
    ∀ r ∈ rs, r.Plain := by
  induction rs generalizing l with
  | nil => exact List.forall_mem_nil _
  | cons r rs ih => exact List.forall_mem_cons.mpr ⟨h.1.plain, ih h.2⟩

section
variable (o : WriteOptions)

/-- The records the reader yields for an entry: those of a chunk, and its message indexes. -/
def Entry.yielded : Entry → List Record
  | record r => [r]
  | chunk records _ => records ++ indexRecords o records

/-- **The records of a file**, those of the chunks one by one. -/
def fileRecords (es : List Entry) (groups : List Group) : List Record :=
  es.flatMap (Entry.yielded o) ++ dataEndOf o es ::
    (summaryRecords o (dataBytes o es ++ (dataEndOf o es).frame).length groups ++
      [.footer (footerOf o (dataBytes o es ++ (dataEndOf o es).frame).length groups)])

end

section
variable {σ : Type} [Encoders σ] {δ : Type} {D : Decompressor δ} {ro : LinearReaderOptions}
  {Δ : Decoding D ro.recordLengthLimit} {o : WriteOptions} {es : List Entry} {groups : List Group}

theorem yields_records {records : List Record} (hw : Admits ro (content records).length)
    (hplain : ∀ r ∈ records, r.Plain) (hmem : (content records).length ≤ USIZE_MAX) (rest : Bytes)
    (h : Option Hasher) :
    Yields Δ ⟨.fileRecord, content records ++ rest, h⟩ (records.map Record.raw)
      ⟨.fileRecord, rest, Spec.absorb h (content records)⟩ := by
  induction records generalizing h with
  | nil =>
    rw [content_nil, Spec.absorb_nil]
    exact .refl _
  | cons r rs ih =>
    obtain ⟨⟨hchunk, hend, hfoot⟩, hplain⟩ := List.forall_mem_cons.mp hplain
    have hsplit : content (r :: rs) = frame r.opcode r.body ++ content rs := rfl
    rw [hsplit, List.length_append] at hmem hw
    have hbody : r.body.length ≤ (frame r.opcode r.body).length := by
      rw [length_frame]
      omega
    have hfirst : Yields Δ ⟨.fileRecord, content (r :: rs) ++ rest, h⟩ [r.raw]
        ⟨.fileRecord, content rs ++ rest, Spec.absorb h (frame r.opcode r.body)⟩ := by
      rw [hsplit, List.append_assoc]
      exact yields_record (fun hc => absurd hc hchunk) hend hfoot (by omega) (hw.mono (by omega))
    have hrest := ih (hw.mono (by omega)) hplain (by omega) (Spec.absorb h (frame r.opcode r.body))
    rw [Spec.absorb_absorb, ← hsplit] at hrest
    exact hfirst.trans hrest

/-- What is asked of the entries of a file: the chunks are packed and their records fit in
memory. -/
structure Entry.Readable (σ : Type) [Encoders σ] (o : WriteOptions) (es : List Entry) : Prop where
  packed : ∀ records out, .chunk records out ∈ es → Packs σ o records out
  content : ∀ records out, .chunk records out ∈ es → (content records).length ≤ ISIZE_MAX
  plain : ∀ r, .record r ∈ es → r.Plain

/-- **The entries of the data section are yielded.** -/
theorem yields_entries (hl : Lossless σ Δ) (hlimit : ro.recordLengthLimit = none)
    (hemit : ro.emitChunks = false) (hr : Entry.Readable σ o es)
    (hmem : (es.flatMap (Entry.bytes o)).length ≤ ISIZE_MAX) (rest : Bytes) (h : Option Hasher) :
    Yields Δ ⟨.fileRecord, es.flatMap (Entry.bytes o) ++ rest, h⟩
      ((es.flatMap (Entry.yielded o)).map Record.raw)
      ⟨.fileRecord, rest, Spec.absorb h (es.flatMap (Entry.bytes o))⟩ := by
  have husize : ISIZE_MAX < USIZE_MAX := by decide
  have husize' : USIZE_MAX < 2 ^ 64 := by decide
  induction es generalizing h with
  | nil =>
    rw [List.flatMap_nil, Spec.absorb_nil]
    exact .refl _
  | cons e es ih =>
    rw [List.flatMap_cons, List.length_append] at hmem
    have hr' : Entry.Readable σ o es :=
      ⟨fun rs out hm => hr.packed rs out (List.mem_cons_of_mem _ hm),
        fun rs out hm => hr.content rs out (List.mem_cons_of_mem _ hm),
        fun r hm => hr.plain r (List.mem_cons_of_mem _ hm)⟩
    have hfirst : Yields Δ ⟨.fileRecord, e.bytes o ++ (es.flatMap (Entry.bytes o) ++ rest), h⟩
        ((e.yielded o).map Record.raw)
        ⟨.fileRecord, es.flatMap (Entry.bytes o) ++ rest, Spec.absorb h (e.bytes o)⟩ := by
      cases e with
      | record r =>
        have hplain := List.forall_mem_singleton.mpr (hr.plain r List.mem_cons_self)
        exact yields_records (admits_of_none hlimit _) hplain (show (content [r]).length ≤ _ by
          have : (content [r]).length = ((Entry.record r).bytes o).length := rfl
          omega) _ h
      | chunk records out =>
        have hlen : ((Entry.chunk records out).bytes o).length =
            (frame op.CHUNK ((chunkHeader o records out).bytes ++ out)).length +
              (content (indexRecords o records)).length := by
          rw [Entry.bytes_chunk, List.length_append]
          rfl
        have hchunk : out.length < (frame op.CHUNK ((chunkHeader o records out).bytes ++ out)).length := by
          rw [length_frame, List.length_append]
          omega
        have hcontent := hr.content records out List.mem_cons_self
        have hi := chunkIntact_closed hl (hr.packed records out List.mem_cons_self) (by omega)
          (by omega)
        rw [content_eq_frames] at hi hcontent
        have hplain : ∀ r ∈ indexRecords o records, r.Plain := by
          intro r hmem
          obtain ⟨e, -, rfl⟩ := List.mem_map.mp hmem
          simp only [Record.Plain, indexRecord, Record.opcode]
          decide
        have hrecords := yields_chunk hemit hi (admits_of_none hlimit _) hcontent (by omega)
          (content (indexRecords o records) ++ (es.flatMap (Entry.bytes o) ++ rest)) h
        have hindexes := yields_records (Δ := Δ) (admits_of_none hlimit _) hplain
          (by omega)
          (es.flatMap (Entry.bytes o) ++ rest)
          (Spec.absorb h (frame op.CHUNK ((chunkHeader o records out).bytes ++ out)))
        have hboth := hrecords.trans hindexes
        rw [Spec.absorb_absorb, ← List.append_assoc, ← List.map_append] at hboth
        exact hboth
    have hrest := ih hr' (by omega) (Spec.absorb h (e.bytes o))
    rw [Spec.absorb_absorb] at hrest
    rw [List.flatMap_cons, List.flatMap_cons, List.map_append, List.append_assoc]
    exact hfirst.trans hrest

theorem plain_summaryRecords (hplain : ∀ r ∈ groupRecords groups, r.Plain)
    (pos : Nat) : ∀ r ∈ summaryRecords o pos groups, r.Plain := by
  intro r hmem
  rcases List.mem_append.mp hmem with hgroup | hoffset
  · exact hplain r hgroup
  · unfold offsetRecords at hoffset
    split at hoffset
    · obtain ⟨i, -, rfl⟩ := List.mem_map.mp hoffset
      simp only [Record.Plain, Record.opcode]
      decide
    · cases hoffset

theorem forall_summaryGroups {Q : Record → Prop} {order : HashOrder} {summary : Summary}
    (hschemas : ∀ id schema, summary.schemas[id]? = some schema → Q (Summary.schemaRecord (id, schema)))
    (hchannels : ∀ id channel, summary.channels[id]? = some channel →
      Q (Summary.channelRecord (id, channel)))
    (hstats : ∀ stats, summary.stats = some stats → Q (.statistics stats))
    (hchunks : ∀ i ∈ summary.chunkIndexes, Q (.chunkIndex i))
    (hattachments : ∀ i ∈ summary.attachmentIndexes, Q (.attachmentIndex i))
    (hmetadata : ∀ i ∈ summary.metadataIndexes, Q (.metadataIndex i)) :
    ∀ r ∈ groupRecords (summaryGroups o order summary), Q r := by
  have hgroup : ∀ {α : Type} {enabled : Bool} {opcode : UInt8} {f : α → Record} {l : List α},
      (∀ a ∈ l, Q (f a)) → ∀ r ∈ groupRecords (groupIf enabled opcode (l.map f)), Q r := by
    intro α enabled opcode f l hf r hmem
    cases enabled with
    | false => cases hmem
    | true =>
      simp only [groupRecords, groupIf, if_true, List.flatMap_singleton] at hmem
      obtain ⟨a, ha, rfl⟩ := List.mem_map.mp hmem
      exact hf a ha
  have hone : ∀ r ∈ groupRecords (statisticsGroup o.emitStatistics summary.stats), Q r := by
    cases hs : summary.stats with
    | none => exact List.forall_mem_nil _
    | some stats =>
      exact hgroup (l := [stats]) (f := Record.statistics)
        (List.forall_mem_singleton.mpr (hstats stats hs))
  simp only [summaryGroups, groupRecords, List.flatMap_append, List.forall_mem_append]
  refine ⟨⟨⟨⟨⟨hgroup ?_, hgroup ?_⟩, hone⟩, hgroup hchunks⟩, hgroup hattachments⟩, hgroup hmetadata⟩
  · intro e he
    exact hschemas e.1 e.2 (BTreeMap.mem_toList.mp ((order.schemas_perm _).mem_iff.mp he))
  · intro e he
    exact hchannels e.1 e.2 (BTreeMap.mem_toList.mp ((order.channels_perm _).mem_iff.mp he))

theorem plain_summaryGroups (order : HashOrder) (summary : Summary) :
    ∀ r ∈ groupRecords (summaryGroups o order summary), r.Plain := by
  refine forall_summaryGroups ?_ ?_ ?_ ?_ ?_ ?_
  all_goals
    intros
    simp only [Record.Plain, Record.opcode, Summary.schemaRecord, Summary.channelRecord]
    decide

theorem parses_summary (hgroups : ∀ r ∈ groupRecords groups, r.Plain) {pos : Nat}
    (hw : Admits ro (content (summaryRecords o pos groups)).length) (hw' : Admits ro 20)
    (hmem : (content (summaryRecords o pos groups)).length ≤ USIZE_MAX) :
    Parses D Δ ⟨.fileRecord, content (summaryRecords o pos groups) ++
        ((Record.footer (footerOf o pos groups)).frame ++ MAGIC),
        if ro.validateSummarySectionCrc then some Hasher.new else none⟩
      ((summaryRecords o pos groups ++ [Record.footer (footerOf o pos groups)]).map Record.raw)
      .finished := by
  have hrecords := yields_records (Δ := Δ) hw (plain_summaryRecords (o := o) hgroups pos) hmem
    ((Record.footer (footerOf o pos groups)).frame ++ MAGIC)
    (if ro.validateSummarySectionCrc then some Hasher.new else none)
  rw [List.map_append]
  have hlen : (footerOf o pos groups).bytes.length = 20 := by simp [Footer.bytes]
  refine hrecords.parses (parses_footer_magic (by rw [hlen]; exact hw') ?_)
  intro hasher hh
  split at hh
  · cases hh
    simp only [footerOf]
    split
    · refine .inr ?_
      simp [Hasher.new, Hasher.update, opAndLen, footerFields, Footer.bytes]
    · exact .inl rfl
  · cases hh

theorem yields_dataSection (hl : Lossless σ Δ) (hlimit : ro.recordLengthLimit = none)
    (hskip : ro.skipStartMagic = false) (hemit : ro.emitChunks = false) (hr : Entry.Readable σ o es)
    (hmem : (dataBytes o es).length ≤ ISIZE_MAX)
    (hcrc : ro.validateDataSectionCrc = true → o.calculateDataSectionCrc = true →
      crc32 (dataHashed o es) = crc32 (dataBytes o es)) (rest : Bytes) :
    Yields Δ (Spec.init ro (dataBytes o es ++ (dataEndOf o es).frame ++ rest))
      ((es.flatMap (Entry.yielded o) ++ [dataEndOf o es]).map Record.raw)
      ⟨.fileRecord, rest, if ro.validateSummarySectionCrc then some Hasher.new else none⟩ := by
  generalize hhasher : (if ro.validateDataSectionCrc then some Hasher.new else none) = h
  have hinit : Spec.init ro (dataBytes o es ++ (dataEndOf o es).frame ++ rest) =
      ⟨.startMagic, MAGIC ++ (es.flatMap (Entry.bytes o) ++ ((dataEndOf o es).frame ++ rest)), h⟩ := by
    rw [Spec.init, hskip, hhasher]
    simp only [dataBytes, List.append_assoc]
    rfl
  rw [dataBytes, List.length_append] at hmem
  have hentries := yields_entries hl hlimit hemit hr (by omega) ((dataEndOf o es).frame ++ rest)
    (Spec.absorb h MAGIC)
  rw [Spec.absorb_absorb, ← dataBytes] at hentries
  have hend : Yields Δ ⟨.fileRecord, (dataEndOf o es).frame ++ rest, Spec.absorb h (dataBytes o es)⟩
      [(dataEndOf o es).raw]
      ⟨.fileRecord, rest, if ro.validateSummarySectionCrc then some Hasher.new else none⟩ := by
    refine yields_dataEnd (admits_of_none hlimit _) ?_ rest
    intro hasher hh
    rw [← hhasher] at hh
    split at hh
    · rename_i hval
      cases hh
      unfold dataHasher
      split
      · rename_i hcalc
        exact .inr (hcrc hval hcalc)
      · exact .inl rfl
    · cases hh
  rw [hinit, List.map_append]
  exact .again (turn_startMagic_append hskip _ h) (hentries.trans hend)

/-- **The reader yields the records of the file** and finishes. -/
theorem file_parses (hl : Lossless σ Δ) (hlimit : ro.recordLengthLimit = none)
    (hskip : ro.skipStartMagic = false) (hemit : ro.emitChunks = false) (hr : Entry.Readable σ o es)
    (hgroups : ∀ r ∈ groupRecords groups, r.Plain)
    (hmem : (fileBytes o es groups).length ≤ ISIZE_MAX)
    (hcrc : ro.validateDataSectionCrc = true → o.calculateDataSectionCrc = true →
      crc32 (dataHashed o es) = crc32 (dataBytes o es)) :
    Parses D Δ (Spec.init ro (fileBytes o es groups)) ((fileRecords o es groups).map Record.raw)
      .finished := by
  have husize : ISIZE_MAX < USIZE_MAX := by decide
  unfold fileBytes at hmem ⊢
  unfold fileRecords
  generalize (dataBytes o es ++ (dataEndOf o es).frame).length = pos at *
  rw [List.length_append, List.length_append, List.length_append, List.length_append] at hmem
  have hdata := yields_dataSection hl hlimit hskip hemit hr (by omega) hcrc
    (content (summaryRecords o pos groups) ++ ((Record.footer (footerOf o pos groups)).frame ++ MAGIC))
  have hsummary : Parses D Δ _ _ _ := parses_summary (o := o) hgroups (admits_of_none hlimit _)
    (admits_of_none hlimit _) (show (content (summaryRecords o pos groups)).length ≤ USIZE_MAX by omega)
  have hall := hdata.parses hsummary
  rw [← List.map_append] at hall
  simpa only [List.append_assoc, List.singleton_append] using hall

end
end Mcap

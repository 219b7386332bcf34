import Mcap.Conflicts
import Mcap.FileReading

/-! # Checksums of a file

The checksums that a writer puts into its file, and the reader that validates them.  The
reader accepts the file of a session whichever of them it validates, and yields the same
records (`crc_modes_agree`), if the writer has calculated all of them.

The checksum of the data section is that of the bytes before it only if the writer also
calculates the checksums of the chunks: the compressed data of a chunk reaches the hasher of
the data section through a hasher that is there for the chunks only (`dataHashed_eq_iff`).
-/
namespace Mcap

/-! ## What has been hashed -/

section
variable {o : WriteOptions} {es : List Entry}

theorem Entry.length_hashed_le (e : Entry) : (e.hashed o).length ≤ (e.bytes o).length := by
  cases e with
  | record r => rw [Entry.bytes_record, Entry.hashed]
  | chunk records out =>
    rw [Entry.bytes_chunk, Record.frame, frame_eq]
    simp only [Entry.hashed, closedChunk, Record.body, Record.opcode, List.length_append]
    split
    · exact Nat.le_of_eq (by omega)
    · simp only [List.length_nil]
      omega

theorem Entry.hashed_eq_bytes (h : o.calculateChunkCrcs = true) (e : Entry) :
    e.hashed o = e.bytes o := by
  cases e with
  | record r => rw [Entry.bytes_record, Entry.hashed]
  | chunk records out =>
    rw [Entry.bytes_chunk, Record.frame, frame_eq]
    simp only [Entry.hashed, closedChunk, Record.body, Record.opcode, h, if_true, List.append_assoc]

theorem Entry.hashed_chunk_nil (records : List Record) :
    (Entry.chunk records []).hashed o = (Entry.chunk records []).bytes o := by
  rw [Entry.bytes_chunk, Record.frame, frame_eq]
  simp only [Entry.hashed, closedChunk, Record.body, Record.opcode, ite_self, List.append_nil]

theorem flatMap_eq_flatMap {α β : Type} {f g : α → List β} {l : List α} (h : ∀ a ∈ l, f a = g a) :
    l.flatMap f = l.flatMap g := by
  induction l with
  | nil => rfl
  | cons a l ih =>
    obtain ⟨ha, hl⟩ := List.forall_mem_cons.mp h
    rw [List.flatMap_cons, List.flatMap_cons, ha, ih hl]

theorem length_flatMap_hashed_le (es : List Entry) :
    (es.flatMap (Entry.hashed o)).length ≤ (es.flatMap (Entry.bytes o)).length := by
  induction es with
  | nil => exact Nat.le_refl _
  | cons e es ih =>
    rw [List.flatMap_cons, List.flatMap_cons, List.length_append, List.length_append]
    exact Nat.add_le_add e.length_hashed_le ih

/-- **The hasher has seen the data section** exactly if the checksums of the chunks are
calculated, or there is no compressed data. -/
theorem dataHashed_eq_iff : dataHashed o es = dataBytes o es ↔
    o.calculateChunkCrcs = true ∨ ∀ records out, .chunk records out ∈ es → out = [] := by
  constructor
  · intro heq
    by_contra hne
    obtain ⟨hcrcs, hchunk⟩ := not_or.mp hne
    obtain ⟨records, out, hmem, hout⟩ : ∃ records out, .chunk records out ∈ es ∧ out ≠ [] := by
      simpa only [not_forall, exists_prop] using hchunk
    obtain ⟨pre, post, rfl⟩ := List.append_of_mem hmem
    -- what is hashed of this chunk is shorter than the chunk
    have hlt : ((Entry.chunk records out).hashed o).length < ((Entry.chunk records out).bytes o).length := by
      have hpos := List.length_pos_iff.mpr hout
      rw [Entry.bytes_chunk, Record.frame, frame_eq]
      simp only [Entry.hashed, closedChunk, Record.body, Record.opcode, List.length_append, hcrcs]
      simp only [Bool.false_eq_true, if_false, List.length_nil]
      omega
    have hlen := congrArg List.length heq
    have hpre := length_flatMap_hashed_le (o := o) pre
    have hpost := length_flatMap_hashed_le (o := o) post
    simp only [dataHashed, dataBytes, List.flatMap_append, List.flatMap_cons, List.length_append] at hlen
    omega
  · intro h
    refine congrArg (MAGIC ++ ·) (flatMap_eq_flatMap fun e he => ?_)
    rcases h with hcrcs | hnil
    · exact e.hashed_eq_bytes hcrcs
    · cases e with
      | record r => rw [Entry.bytes_record, Entry.hashed]
      | chunk records out =>
        obtain rfl := hnil records out he
        exact Entry.hashed_chunk_nil records

end

/-! ## Reading with checksums -/

/-- The checksums that a reader validates. -/
def crcOptions (chunks prevalidate dataSection summarySection : Bool) : LinearReaderOptions where
  validateChunkCrcs := chunks
  prevalidateChunkCrcs := prevalidate
  validateDataSectionCrc := dataSection
  validateSummarySectionCrc := summarySection

/-- The file and the records of each chunk fit in memory. -/
structure InMemory (o : WriteOptions) (es : List Entry) (groups : List Group) : Prop where
  file : (fileBytes o es groups).length ≤ ISIZE_MAX
  chunks : ∀ records out, .chunk records out ∈ es → (content records).length ≤ ISIZE_MAX

theorem Op.keeps_plain (o : WriteOptions) (op : Op) : op.Keeps Record.Plain o := by
  cases op with
  | addSchema =>
    intro id
    simp only [Record.Plain, SchemaContent.record, Record.opcode]
    decide
  | addChannel =>
    intro id
    simp only [Record.Plain, ChannelContent.record, Record.opcode]
    decide
  | write message =>
    refine ⟨fun s _ => ?_, ?_, ?_⟩
    all_goals
      simp only [Record.Plain, SchemaContent.record, ChannelContent.record, Record.opcode]
      decide
  | writePrivateRecord opcode data _ => exact fun hop => Ledger.Allows.plain (l := .empty) hop
  | startAttachment | attach =>
    intro data _
    simp only [Record.Plain, attachmentRecord, Record.opcode]
    decide
  | writeToKnownChannel | writeMetadata =>
    simp only [Op.Keeps, Record.Plain, Record.opcode]
    decide
  | _ => trivial

section
variable {σ : Type} [Encoders σ] {δ : Type} {D : Decompressor δ} {Δ : Decoding D none}
  {o : WriteOptions} {w w' : Writer σ Stream} {order : HashOrder} {summary : Summary}

/-- **The reader yields the records of the file**, whichever checksums it validates. -/
theorem file_observed (hl : Lossless σ Δ) {es : List Entry}
    (hp : ∀ records out, .chunk records out ∈ es → Packs σ o records out)
    (hplain : ∀ r ∈ es.flatMap Entry.flat, r.Plain)
    (hmem : InMemory o es (summaryGroups o order summary)) {chunks prevalidate dataSection
      summarySection : Bool}
    (hcrc : dataSection = true → o.calculateDataSectionCrc = true →
      dataHashed o es = dataBytes o es) :
    Observes D (LinearReader.newWithOptions
        (crcOptions chunks prevalidate dataSection summarySection))
      (fileBytes o es (summaryGroups o order summary))
      ((fileRecords o es (summaryGroups o order summary)).map Record.raw) .finished := by
  have hr : Entry.Readable σ o es := by
    refine ⟨hp, hmem.chunks, fun r hr => hplain r (List.mem_flatMap.mpr ⟨_, hr, ?_⟩)⟩
    exact List.mem_singleton_self r
  have hparses : Parses D Δ (Spec.init (crcOptions chunks prevalidate dataSection summarySection)
      (fileBytes o es (summaryGroups o order summary)))
      ((fileRecords o es (summaryGroups o order summary)).map Record.raw) .finished :=
    file_parses hl rfl rfl rfl hr (plain_summaryGroups order summary) hmem.file
      fun hval hcalc => congrArg crc32 (hcrc hval hcalc)
  exact observes_of_parses hparses
    (sim_init (o := crcOptions chunks prevalidate dataSection summarySection) Δ _)

theorem Writer.Session.file {P : Writer σ Stream → Op → Res McapError Reply → Prop}
    {calls : List (Op × Res McapError Reply)} (h : Writer.Session P o calls w)
    (hfin : Writer.finish order w = (.ok summary, w')) :
    ∃ w₁ es, w'.Produced (fileBytes o es (summaryGroups o order summary)) ∧
      (∀ records out, .chunk records out ∈ es → Packs σ o records out) ∧
      (∀ r ∈ es.flatMap Entry.flat, r.Plain) ∧ w.finishedSummary = none ∧
      Writer.finishChunk w = (.ok (), w₁) ∧ w₁.chunkIndexes = chunkIndexesOf o es ∧
      summary.chunkIndexes = chunkIndexesOf o es := by
  obtain ⟨j, hj⟩ := h.recorded (K := Record.Plain)
    (by simp only [Record.Plain, fileHeader, Record.opcode]; decide) fun _ op _ _ => op.keeps_plain o
  obtain ⟨w₁, es, schemas, channels, hfc, hrec, -, -, -, -, hsummary, hfile⟩ := hj.finish hfin
  have hindexes : w₁.chunkIndexes = chunkIndexesOf o es := by
    rw [hrec.shows_.booked.chunkIndexes, hrec.options]
  refine ⟨w₁, es, hfile, ?_, ?_, hj.shows_.notFinished, hfc, hindexes, ?_⟩
  · have hpacked := hrec.shows_.packed
    rwa [hrec.options] at hpacked
  · have hkept := hrec.kept
    rwa [Journal.flat, List.append_nil] at hkept
  · rw [hsummary, ← hindexes]
    rfl

/-! ## The data section -/

omit [Encoders σ] in
/-- No chunk has been written, and none is open. -/
def Writer.Unchunked (w : Writer σ Stream) : Prop :=
  w.chunkIndexes = [] ∧ ∀ c, w.writer ≠ some (.chunk c)

omit [Encoders σ] in
theorem exists_offset {e : Entry} {es : List Entry} (he : e ∈ es) (p : Nat) :
    ∃ pos, (pos, e) ∈ withOffsets o p es := by
  induction es generalizing p with
  | nil => cases he
  | cons e' es ih =>
    rcases List.mem_cons.mp he with rfl | he
    · exact ⟨p, List.mem_cons_self⟩
    · obtain ⟨pos, hpos⟩ := ih he (p + (e'.bytes o).length)
      exact ⟨pos, List.mem_cons_of_mem _ hpos⟩

theorem not_mem_of_chunkIndexesOf {es : List Entry} (h : chunkIndexesOf o es = [])
    (records : List Record) (out : Bytes) : .chunk records out ∉ es := by
  intro hmem
  obtain ⟨pos, hpos⟩ := exists_offset (o := o) hmem MAGIC.length
  have hin : chunkIndex o pos records out ∈ chunkIndexesOf o es :=
    List.mem_filterMap.mpr ⟨_, hpos, rfl⟩
  rw [h] at hin
  cases hin

theorem Writer.finishChunk_of_unchunked {w₁ : Writer σ Stream} (hn : w.finishedSummary = none)
    (h : w.Unchunked) (hfc : finishChunk w = (.ok (), w₁)) : w₁ = w := by
  rw [finishChunk, Exec.bind_ok (assertNotFinished_run hn), Exec.bind_ok (Exec.get_run w)] at hfc
  rcases hw : w.writer with _ | (c | c | a | s)
  case some.chunk => exact absurd hw (h.2 c)
  all_goals
    simp only [hw] at hfc
    cases hfc
  rfl

/-- **The checksum of the data section** is that of the bytes before it if the checksums of
the chunks are calculated too, or if there are no chunks.  A reader that validates it then
accepts the file.  Otherwise it is the checksum of something else. -/
theorem data_section_crc {calls : List (Op × Res McapError Reply)} (hl : Lossless σ Δ)
    (hcrc : o.calculateDataSectionCrc = true)
    (hsession : Writer.Session (fun _ _ res => ∃ reply, res = .ok reply) o calls w)
    (hfin : Writer.finish order w = (.ok summary, w')) :
    ∃ es, w'.Produced (fileBytes o es (summaryGroups o order summary)) ∧
      dataEndOf o es = .dataEnd ⟨crc32 (dataHashed o es)⟩ ∧
      (dataHashed o es = dataBytes o es ↔
        o.calculateChunkCrcs = true ∨ ∀ records out, .chunk records out ∈ es → out = []) ∧
      (o.calculateChunkCrcs = true ∨ w.Unchunked →
        dataEndOf o es = .dataEnd ⟨crc32 (dataBytes o es)⟩ ∧
        (InMemory o es (summaryGroups o order summary) → ∀ chunks prevalidate summarySection,
          Observes D (LinearReader.newWithOptions
              (crcOptions chunks prevalidate true summarySection))
            (fileBytes o es (summaryGroups o order summary))
            ((fileRecords o es (summaryGroups o order summary)).map Record.raw) .finished)) := by
  obtain ⟨w₁, es, hfile, hpacked, hplain, hnot, hfc, hindexes, -⟩ := hsession.file hfin
  have hend : dataEndOf o es = .dataEnd ⟨crc32 (dataHashed o es)⟩ := by
    simp only [dataEndOf, dataHasher, hcrc, if_true]
    rfl
  refine ⟨es, hfile, hend, dataHashed_eq_iff, fun hcond => ?_⟩
  have hhashed : dataHashed o es = dataBytes o es := by
    refine dataHashed_eq_iff.mpr (hcond.imp id fun hun records out hmem => ?_)
    obtain rfl := Writer.finishChunk_of_unchunked hnot hun hfc
    rw [hun.1] at hindexes
    exact absurd hmem (not_mem_of_chunkIndexesOf hindexes.symm records out)
  refine ⟨by rw [hend, hhashed], fun hmem chunks prevalidate summarySection => ?_⟩
  exact file_observed hl hpacked hplain hmem fun _ _ => hhashed

end

theorem Coder.Took.none_of_empty {compression : Option Compression} {level threads : UInt32}
    {data out : Bytes} {coder : Coder Empty}
    (h : Coder.Took compression level threads data coder out) : compression = none := by
  induction h with
  | start hs =>
    rcases compression with _ | (_ | _)
    · rfl
    · cases hs
    · cases hs
  | push _ _ ih => exact ih

theorem lossless_empty : Lossless Empty storedDecoding where
  unpacks hne htook _ := absurd htook.none_of_empty hne
  lz4 := ⟨_, rfl⟩

/-- Chunks, and a checksum of the data section only. -/
def dataCrcOptions : WriteOptions :=
  { plainOptions with useChunks := true, calculateDataSectionCrc := true }

/-- A file without chunks. -/
theorem data_section_crc_on_empty : ∃ (w w' : Writer Empty Stream) (summary : Summary),
    Writer.withOptions Stream.empty dataCrcOptions = .ok w ∧
      Writer.finish .byId w = (.ok summary, w') ∧ w.Unchunked ∧
      ∃ es, w'.Produced (fileBytes dataCrcOptions es (summaryGroups dataCrcOptions .byId summary)) ∧
        dataEndOf dataCrcOptions es = .dataEnd ⟨crc32 (dataBytes dataCrcOptions es)⟩ := by
  have hun : ∀ w : Writer Empty Stream, Writer.withOptions Stream.empty dataCrcOptions = .ok w →
      w.Unchunked := by
    intro w hw
    cases hw
    exact ⟨rfl, fun c hne => by cases hne⟩
  refine ⟨_, _, _, rfl, rfl, hun _ rfl, ?_⟩
  obtain ⟨es, hfile, -, -, hcond⟩ := data_section_crc lossless_empty rfl
    (.start (show Writer.withOptions Stream.empty dataCrcOptions = .ok _ from rfl))
    (show Writer.finish .byId _ = _ from rfl)
  exact ⟨es, hfile, (hcond (.inr (hun _ rfl))).1⟩

/-- A chunk with one record of the user's. -/
def privateChunk : List Entry :=
  [.record (fileHeader dataCrcOptions),
    .chunk [.unknown 0x80 []] (content [.unknown 0x80 []])]

set_option maxRecDepth 100000 in
/-- **A checksum that is not that of the data section**: a record goes into a chunk, and the
checksums of chunks are not calculated. -/
theorem data_section_crc_wrong : ∃ (w w' : Writer Empty Stream) (summary : Summary),
    Writer.Session (fun _ _ res => ∃ reply, res = .ok reply) dataCrcOptions
        [(.writePrivateRecord 0x80 [] true, .ok .done)] w ∧
      Writer.finish .byId w = (.ok summary, w') ∧
      w'.Produced (fileBytes dataCrcOptions privateChunk
        (summaryGroups dataCrcOptions .byId summary)) ∧
      dataEndOf dataCrcOptions privateChunk ≠
        .dataEnd ⟨crc32 (dataBytes dataCrcOptions privateChunk)⟩ := by
  have hstart : Writer.Session (fun _ _ res => ∃ reply, res = .ok reply) dataCrcOptions []
    (_ : Writer Empty Stream) := .start rfl
  refine ⟨_, _, _, hstart.call ⟨.done, rfl⟩
    (show Op.run (.writePrivateRecord 0x80 [] true) _ = _ from rfl) (returned_of_ok rfl), rfl,
    ⟨_, rfl, rfl⟩, ?_⟩
  decide +kernel

/-! ## Good files and bad chunks -/

section
variable {σ : Type} [Encoders σ] {δ : Type}

/-- **The ways to validate checksums agree on good files and stop at bad chunks.**  A file
that has all of them is read the same way, whichever are validated.  A reader that checks a
chunk first does not yield any of its records if its checksum is wrong: it has yielded what is
before the chunk, and fails. -/
theorem crc_modes_agree (D : Decompressor δ) :
    (∀ (Δ : Decoding D none) (o : WriteOptions) (calls : List (Op × Res McapError Reply))
        (w w' : Writer σ Stream) (order : HashOrder) (summary : Summary), Lossless σ Δ →
      o.calculateChunkCrcs = true → o.calculateDataSectionCrc = true →
      Writer.Session (fun _ _ _ => True) o calls w →
      Writer.finish order w = (.ok summary, w') →
      ∃ es, w'.Produced (fileBytes o es (summaryGroups o order summary)) ∧
        (InMemory o es (summaryGroups o order summary) →
          ∀ chunks prevalidate dataSection summarySection,
            Observes D (LinearReader.newWithOptions
                (crcOptions chunks prevalidate dataSection summarySection))
              (fileBytes o es (summaryGroups o order summary))
              ((fileRecords o es (summaryGroups o order summary)).map Record.raw) .finished)) ∧
    ∀ (ro : LinearReaderOptions) (Δ : Decoding D ro.recordLengthLimit) (bytes : Bytes)
        (evs : List (UInt8 × Bytes)) (hasher : Option Hasher) (header : ChunkHeader)
        (compressed padding out rest : Bytes), ro.prevalidateChunkCrcs = true →
      ro.emitChunks = false →
      Yields Δ (Spec.init ro bytes) evs
        ⟨.fileRecord, chunkFrame header compressed padding ++ rest, hasher⟩ →
      ChunkWhole Δ header compressed out → header.uncompressedCrc ≠ 0 →
      header.uncompressedCrc ≠ crc32 out → Admits ro padding.length → Admits ro out.length →
      (chunkFrame header compressed padding).length ≤ ISIZE_MAX → out.length ≤ ISIZE_MAX →
      Observes D (LinearReader.newWithOptions ro) bytes evs
        (.failed (.badChunkCrc header.uncompressedCrc (crc32 out))) := by
  constructor
  · intro Δ o calls w w' order summary hl hchunks hdata hsession hfin
    obtain ⟨w₁, es, hfile, hpacked, hplain, -⟩ := hsession.file hfin
    refine ⟨es, hfile, fun hmem chunks prevalidate dataSection summarySection => ?_⟩
    exact file_observed hl hpacked hplain hmem fun _ _ => dataHashed_eq_iff.mpr (.inl hchunks)
  · intro ro Δ bytes evs hasher header compressed padding out rest hpre hemit hfront hc h0 hcrc
      hpad hw hlen hmem
    have husize : ISIZE_MAX ≤ USIZE_MAX := by decide
    have hfails := fails_chunk hemit hpre hc h0 hcrc hpad hw hmem (by omega) rest hasher
    have hparses := hfront.parses hfails
    rw [List.append_nil] at hparses
    exact observes_of_parses hparses (sim_init Δ bytes)

end

/-- The header of a chunk that holds one record, with the wrong checksum. -/
def badHeader : ChunkHeader where
  messageStartTime := 0
  messageEndTime := 0
  uncompressedSize := 9
  uncompressedCrc := 1
  compression := ""
  compressedSize := 9

/-- A file with a chunk whose checksum is wrong. -/
def badChunkFile : Bytes :=
  MAGIC ++ (chunkFrame badHeader (frame 0x80 []) [] ++ (frame op.FOOTER (List.replicate 20 0) ++ MAGIC))

/-- The options that check chunks first. -/
def prevalidateOptions : LinearReaderOptions where
  prevalidateChunkCrcs := true

/-- The checksums a writer can calculate. -/
def allCrcOptions : WriteOptions :=
  { plainOptions with
    useChunks := true
    calculateChunkCrcs := true
    calculateDataSectionCrc := true
    calculateSummarySectionCrc := true
    calculateAttachmentCrcs := true }

/-- An empty session, and a file with a bad chunk. -/
theorem crc_modes_agree_on_badChunk :
    (∃ (w w' : Writer Empty Stream) (summary : Summary) (es : List Entry),
      Writer.withOptions Stream.empty allCrcOptions = .ok w ∧
        Writer.finish .byId w = (.ok summary, w') ∧
        w'.Produced (fileBytes allCrcOptions es (summaryGroups allCrcOptions .byId summary))) ∧
      Observes storedLz4 (LinearReader.newWithOptions prevalidateOptions) badChunkFile []
        (.failed (.badChunkCrc 1 (crc32 (frame 0x80 [])))) := by
  obtain ⟨hgood, hbad⟩ := crc_modes_agree (σ := Empty) storedLz4
  constructor
  · obtain ⟨es, hfile, -⟩ := hgood storedDecoding allCrcOptions _ _ _ .byId _ lossless_empty rfl rfl
      (.start (show Writer.withOptions Stream.empty allCrcOptions = .ok _ from rfl)) rfl
    exact ⟨_, _, _, es, rfl, rfl, hfile⟩
  · have hfront : Yields storedDecoding (Spec.init prevalidateOptions badChunkFile) []
        ⟨.fileRecord, chunkFrame badHeader (frame 0x80 []) [] ++
          (frame op.FOOTER (List.replicate 20 0) ++ MAGIC), none⟩ :=
      .again (turn_startMagic_append (o := prevalidateOptions) rfl _ none) (.refl _)
    refine hbad prevalidateOptions storedDecoding badChunkFile [] none badHeader (frame 0x80 []) []
      (frame 0x80 []) _ rfl rfl hfront ⟨by decide, rfl, rfl, fun _ => rfl, fun hne => absurd rfl hne⟩
      (by decide) ?_ rfl rfl (by decide) (by decide)
    decide +kernel

/-- **A bad chunk that does not stop the reader**: the chunk is handed out whole. -/
theorem badChunk_emitted : ∃ evs,
    badHeader.uncompressedCrc ≠ 0 ∧ badHeader.uncompressedCrc ≠ crc32 (frame 0x80 []) ∧
      Observes storedLz4 (LinearReader.newWithOptions { prevalidateOptions with emitChunks := true })
        badChunkFile evs .finished := by
  refine ⟨_, by decide, by decide +kernel, observes_of_parses (parses_of_parse _
    (fun h => unpacks_stored h) (show Spec.parse storedLz4 _ unpackStored 10 _ = some (_, _) from rfl))
    (sim_init (o := { prevalidateOptions with emitChunks := true }) storedDecoding badChunkFile)⟩

end Mcap

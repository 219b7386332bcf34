import Mcap.GoRoundTrip

/-! # What a file of the Go library holds

The checksums and the message indexes of a closed file, read with the parsers.  The index of a
channel in a chunk lists its messages in order; an entry has the time of its message and the place
of its record, which is the length of the records in front of it.  An index is written for every
channel that has messages in the chunk, since the writer knows the channel of every message
(`Listed`).

With what the lexer emits this is the round trip of the library (`lexer_round_trip`).
-/
namespace Mcap
namespace Go

open Lexer (Item Unpacks AtBase Lexes emits_items turn_magic)

/-! ## Message indexes -/

/-- The entry has the time of the message, and points at its record. -/
def Points (bytes : Bytes) (m : Message) (e : MessageIndexEntry) : Prop :=
  e.timestamp = m.logTime ∧ frame op.MESSAGE m.body <+: bytes.drop e.offset.toNat

/-- The messages of a channel. -/
def messagesOf (id : UInt16) (cs : List Call) : List Message :=
  (messages cs).filter fun m => m.channelID = id

/-- The entries that message indexes have for a channel. -/
def entriesOf (id : UInt16) (indexes : List MessageIndex) : List MessageIndexEntry :=
  (indexes.filter fun index => index.channelID = id).flatMap MessageIndex.records

/-- **The message indexes of a chunk**: those of different channels, and for each channel the
entries point at its messages in order. -/
structure Indexes (cs : List Call) (indexes : List MessageIndex) : Prop where
  nodup : (indexes.map MessageIndex.channelID).Nodup
  current : ∀ index ∈ indexes, index.currentIndex = index.records.length
  exact : ∀ id, entriesOf id indexes = indexEntries id 0 cs
  points : ∀ id, List.Forall₂ (Points (callBytes cs)) (messagesOf id cs) (entriesOf id indexes)

variable {cs : List Call} {ids : List UInt16} {c c' : Compressor Plain} {o : WriterOptions Plain}

theorem points_indexEntries {bytes : Bytes} {id : UInt16} (before : List Call)
    (hbytes : bytes = callBytes (before ++ cs)) (hlen : bytes.length < 2 ^ 64) :
    List.Forall₂ (Points bytes) (messagesOf id cs)
      (indexEntries id (callBytes before).length cs) := by
  induction cs generalizing before with
  | nil => exact .nil
  | cons c cs ih =>
    have hnext : before ++ c :: cs = (before ++ [c]) ++ cs := by
      rw [List.append_assoc, List.singleton_append]
    have htail := ih (before ++ [c]) (by rw [hbytes, hnext])
    rw [callBytes_append, List.length_append] at htail
    have hsplit : bytes = callBytes before ++ (frame c.opcode c.body ++ callBytes cs) := by
      rw [hbytes, callBytes, List.map_append, frames_append]
      rfl
    have hle := congrArg List.length hsplit
    rw [List.length_append] at hle
    have hpos : (UInt64.ofNat (callBytes before).length).toNat = (callBytes before).length := by
      rw [UInt64.toNat_ofNat']
      exact Nat.mod_eq_of_lt (by omega)
    rw [indexEntries]
    cases c with
    | message m =>
      by_cases hid : m.channelID = id
      · have hmessages : messagesOf id (.message m :: cs) = m :: messagesOf id cs :=
          List.filter_cons_of_pos (by simpa using hid)
        rw [hmessages, indexEntry, if_pos hid]
        refine .cons ⟨rfl, ?_⟩ htail
        show _ <+: bytes.drop (UInt64.ofNat (callBytes before).length).toNat
        rw [hpos, hsplit, List.drop_left]
        exact List.prefix_append _ _
      · have hmessages : messagesOf id (.message m :: cs) = messagesOf id cs :=
          List.filter_cons_of_neg (by simpa using hid)
        rw [hmessages, indexEntry, if_neg hid]
        exact htail
    | _ => exact htail

theorem indexEntries_eq_nil {id : UInt16} {pos : Nat}
    (h : ∀ m, .message m ∈ cs → m.channelID ≠ id) : indexEntries id pos cs = [] := by
  induction cs generalizing pos with
  | nil => rfl
  | cons c cs ih =>
    rw [indexEntries, ih fun m hm => h m (List.mem_cons_of_mem _ hm), List.append_nil]
    cases c with
    | message m => exact if_neg (h m List.mem_cons_self)
    | _ => rfl

/-- The message indexes of a chunk as values. -/
def chunkIndexes (ids : List UInt16) (cs : List Call) : List MessageIndex :=
  ids.filterMap fun id =>
    if indexEntries id 0 cs = [] then none
    else some ⟨id, indexEntries id 0 cs, (indexEntries id 0 cs).length⟩

section
variable {id : UInt16} {ids : List UInt16} {cs : List Call}

theorem chunkIndexes_cons_of_nil (h : indexEntries id 0 cs = []) :
    chunkIndexes (id :: ids) cs = chunkIndexes ids cs := by
  unfold chunkIndexes
  rw [List.filterMap_cons, if_pos h]

theorem chunkIndexes_cons_of_ne (h : indexEntries id 0 cs ≠ []) :
    chunkIndexes (id :: ids) cs =
      ⟨id, indexEntries id 0 cs, (indexEntries id 0 cs).length⟩ :: chunkIndexes ids cs := by
  unfold chunkIndexes
  rw [List.filterMap_cons, if_neg h]

theorem indexRecords_cons_of_nil (h : indexEntries id 0 cs = []) :
    indexRecords (id :: ids) cs = indexRecords ids cs := by
  unfold indexRecords
  rw [List.filterMap_cons, if_pos h]

theorem indexRecords_cons_of_ne (h : indexEntries id 0 cs ≠ []) :
    indexRecords (id :: ids) cs =
      (op.MESSAGE_INDEX, indexBody id (indexEntries id 0 cs)) :: indexRecords ids cs := by
  unfold indexRecords
  rw [List.filterMap_cons, if_neg h]

end

theorem parse_indexRecords (hshort : ∀ r ∈ indexRecords ids cs, r.2.length < 2 ^ 32) :
    (indexRecords ids cs).map (fun r => parseMessageIndex r.2) =
      (chunkIndexes ids cs).map .ok := by
  induction ids with
  | nil => rfl
  | cons id ids ih =>
    by_cases hnil : indexEntries id 0 cs = []
    · rw [indexRecords_cons_of_nil hnil] at hshort ⊢
      rw [chunkIndexes_cons_of_nil hnil]
      exact ih hshort
    · rw [indexRecords_cons_of_ne hnil] at hshort ⊢
      rw [chunkIndexes_cons_of_ne hnil, List.map_cons, List.map_cons,
        ih fun r hr => hshort r (List.mem_cons_of_mem _ hr),
        parseMessageIndex_body (hshort _ List.mem_cons_self)]

theorem entriesOf_chunkIndexes (hnodup : ids.Nodup)
    {id : UInt16} : entriesOf id (chunkIndexes ids cs) =
      if id ∈ ids then indexEntries id 0 cs else [] := by
  unfold entriesOf
  induction ids with
  | nil => rfl
  | cons id' ids ih =>
    obtain ⟨hfresh, hnodup⟩ := List.nodup_cons.mp hnodup
    have htail := ih hnodup
    by_cases hnil : indexEntries id' 0 cs = []
    · rw [chunkIndexes_cons_of_nil hnil, htail]
      by_cases he : id' = id
      · subst he
        rw [if_neg hfresh, if_pos List.mem_cons_self, hnil]
      · simp [List.mem_cons, Ne.symm he]
    · rw [chunkIndexes_cons_of_ne hnil]
      by_cases he : id' = id
      · subst he
        rw [List.filter_cons_of_pos (by simp), List.flatMap_cons, htail, if_neg hfresh,
          if_pos List.mem_cons_self, List.append_nil]
      · rw [List.filter_cons_of_neg (by simpa using he), htail]
        simp [List.mem_cons, Ne.symm he]

theorem indexes_chunkIndexes (hnodup : ids.Nodup) (hall : ∀ m, .message m ∈ cs → m.channelID ∈ ids)
    (hlen : (callBytes cs).length < 2 ^ 64) :
    Indexes cs (chunkIndexes ids cs) := by
  have hexact : ∀ id, entriesOf id (chunkIndexes ids cs) = indexEntries id 0 cs := by
    intro id
    rw [entriesOf_chunkIndexes hnodup]
    split
    · rfl
    · rename_i hid
      exact (indexEntries_eq_nil fun m hm he => hid (by rw [← he]; exact hall m hm)).symm
  refine ⟨?_, ?_, hexact, fun id => ?_⟩
  · have hsub : ((chunkIndexes ids cs).map MessageIndex.channelID).Sublist ids := by
      clear hexact hall hnodup
      induction ids with
      | nil => exact .slnil
      | cons id ids ih =>
        by_cases hnil : indexEntries id 0 cs = []
        · rw [chunkIndexes_cons_of_nil hnil]
          exact ih.cons _
        · rw [chunkIndexes_cons_of_ne hnil, List.map_cons]
          exact ih.cons_cons _
    exact hsub.nodup hnodup
  · intro index hindex
    obtain ⟨id, -, hid⟩ := List.mem_filterMap.mp hindex
    split at hid
    · cases hid
    · cases hid
      rfl
  · rw [hexact]
    exact points_indexEntries [] rfl hlen

/-! ## Sections and checksums -/

/-- The footer record, with its checksum. -/
def Footer.body (f : Footer) : Bytes :=
  (u64 f.summaryStart ++ u64 f.summaryOffsetStart) ++ u32 f.summaryCRC

/-- **The sections of a file** and their checksums: that of the data section, up to its end, and
that of the summary section, up to the checksum in the footer. -/
structure Sections {κ : Type} (o : WriterOptions κ) (file : Bytes)
    (data summary : List (UInt8 × Bytes)) (dataEnd : DataEnd) (footer : Footer) : Prop where
  file : file = lead o ++ frames data ++ frame op.DATA_END dataEnd.body ++ frames summary ++
    frame op.FOOTER footer.body ++ MAGIC
  inner : ∀ r ∈ data ++ summary, r.1 ≠ op.DATA_END ∧ r.1 ≠ op.FOOTER
  dataSectionCRC : o.includeCRC = true → dataEnd.dataSectionCRC = crc32 (lead o ++ frames data)
  summaryCRC : o.includeCRC = true → footer.summaryCRC =
    crc32 (frames summary ++ (frame op.FOOTER footer.body).take (1 + 8 + 8 + 8))

section
variable {κ : Type} [ResettableWriteCloser κ] [Packages κ] {D : Unpackers}
  {opts o : WriterOptions κ} {header : Header} {calls : List Call} {es : List Entry}
  {w w' : Writer κ}

omit [ResettableWriteCloser κ] [Packages κ] in
theorem opcode_dataFrames {r : UInt8 × Bytes} (hr : r ∈ dataFrames o header es) :
    r.1 ∈ [op.HEADER, op.SCHEMA, op.CHANNEL, op.MESSAGE, op.ATTACHMENT, op.METADATA, op.CHUNK,
      op.MESSAGE_INDEX] := by
  rcases List.mem_cons.mp hr with rfl | hr
  · exact List.mem_cons_self
  · obtain ⟨e, -, hre⟩ := List.mem_flatMap.mp hr
    cases e with
    | record c =>
      rw [List.mem_singleton.mp hre]
      cases c <;> simp [Call.record, Call.opcode]
    | chunk cs ids out =>
      rcases List.mem_cons.mp hre with rfl | hindex
      · simp
      · rw [opcode_indexRecords _ _ _ hindex]
        simp

omit [ResettableWriteCloser κ] [Packages κ] in
theorem sections_fileBytes (o : WriterOptions κ) (header : Header) (es : List Entry)
    (w : Writer κ) (ho : w.opts.includeCRC = o.includeCRC) :
    ∃ summary dataEnd footer,
      Sections o (fileBytes o header es w) (dataFrames o header es) summary dataEnd footer := by
  have hends : ∀ opcodes : List UInt8, op.DATA_END ∉ opcodes → op.FOOTER ∉ opcodes →
      ∀ r : UInt8 × Bytes, r.1 ∈ opcodes → r.1 ≠ op.DATA_END ∧ r.1 ≠ op.FOOTER :=
    fun opcodes hd hf r hr => ⟨fun he => hd (he ▸ hr), fun he => hf (he ▸ hr)⟩
  have hone : ∀ r : UInt8 × Bytes, frames [r] = frame r.1 r.2 := fun r => List.append_nil _
  obtain ⟨pos, hpos⟩ : ∃ pos, pos = (dataSection o header es).length := ⟨_, rfl⟩
  refine ⟨groupRecords w.groups ++ w.offsetRecords pos,
    ⟨(hashed o.includeCRC (dataBytes o header es)).finalize⟩,
    ⟨.ofNat (if w.groups.isEmpty then 0 else pos), .ofNat (if w.opts.skipSummaryOffsets then 0
      else pos + (frames (groupRecords w.groups)).length),
      (hashed w.opts.includeCRC (summarySection w pos ++
        (op.FOOTER :: (le 8 (8 + 8 + 4) ++ footerFields w pos)))).finalize⟩, ?_⟩
  refine ⟨?_, fun r hr => ?_, fun hcrc => ?_, fun hcrc => ?_⟩
  · rw [fileBytes, ← hpos, dataSection, summarySection, hone, hone, ← dataBytes_eq]
    rfl
  · rcases List.mem_append.mp hr with hr | hr
    · exact hends _ (by decide) (by decide) r (opcode_dataFrames hr)
    · exact hends _ (by decide) (by decide) r (mem_summary hr)
  · show (hashed o.includeCRC (dataBytes o header es)).finalize = _
    rw [hcrc, ← dataBytes_eq]
    rfl
  · show (hashed w.opts.includeCRC _).finalize = _
    rw [ho, hcrc]
    rfl

/-! ## The round trip -/

omit [ResettableWriteCloser κ] [Packages κ] in
theorem newLexer_lead {skipMagic : Bool} (validate seeks : Bool)
    (decompressors : Bytes → Option Decompressor) {rest file : Bytes} (ho : o.skipMagic = skipMagic)
    (hfile : file = lead o ++ rest) (hlen : file.length < 2 ^ 63) :
    ∃ l, newLexer ⟨file, 0, seeks⟩ (lexerOptions skipMagic validate decompressors) = .ok l ∧
      AtBase rest l ∧ l.opts = lexerOptions skipMagic validate decompressors ∧ l.room = 0 := by
  subst ho
  exact Lexer.newLexer_eq _ _ seeks hfile hlen

theorem Settled.skipMagic (h : Settled opts o) : o.skipMagic = opts.skipMagic := by
  rcases h with ⟨rfl, -⟩ | ⟨c, compression, -, rfl, -⟩ <;> rfl

/-- The chunks of a file: their checksums and their message indexes. -/
def Chunked (o : WriterOptions κ) (es : List Entry) : Prop :=
  ∀ cs ids out, .chunk cs ids out ∈ es → Packed o (callBytes cs) out ∧
    (o.includeCRC = true → (chunkOf o cs out).uncompressedCRC = crc32 (callBytes cs)) ∧
    (o.skipMessageIndexing = false → ∃ indexes,
      (indexRecords ids cs).map (fun r => parseMessageIndex r.2) = indexes.map .ok ∧
        Indexes cs indexes)

theorem Finished.chunks_ {validate : Bool} {file : Bytes} (hfin : Finished o header calls es w)
    (hsettled : Settled opts o) (hlimits : WithinLimits opts validate calls file)
    (hfile : file = fileBytes o header es w) : Chunked o es := by
  intro cs ids out he
  refine ⟨hfin.packed cs ids out he, fun hcrc => ?_, fun hindexed => ⟨chunkIndexes ids cs, ?_, ?_⟩⟩
  · show (hashed o.includeCRC (callBytes cs)).finalize = _
    rw [hcrc]
    rfl
  · refine parse_indexRecords fun r hr => ?_
    have hitem : Item.record r ∈ fileItems o header es w := by
      refine List.mem_append_left _ (List.mem_cons_of_mem _ (List.mem_flatMap.mpr ⟨_, he, ?_⟩))
      refine List.mem_cons_of_mem _ (List.mem_map_of_mem ?_)
      rwa [if_neg (by rw [hindexed]; exact Bool.false_ne_true)]
    have hop : r.1 = op.MESSAGE_INDEX := by
      refine opcode_indexRecords o ids cs ?_
      rwa [if_neg (by rw [hindexed]; exact Bool.false_ne_true)]
    have hshort := hlimits.records _ (by rw [← hsettled.lead_eq, hfile, fileBytes_eq]) _
      (List.mem_map_of_mem hitem) (by show r.1 ≠ _; rw [hop]; decide)
      (by show r.1 ≠ _; rw [hop]; decide)
    have hlt : r.2.length < maxInt32 := hshort
    unfold maxInt32 at hlt
    omega
  · have hcs : cs ∈ (chunking opts calls).chunks := by
      rw [← hsettled.chunking, ← hfin.chunked]
      exact List.mem_filterMap.mpr ⟨_, he, rfl⟩
    obtain ⟨hnodup, hall⟩ := hfin.listed cs ids out he
    have hlen := (hlimits.chunks cs hcs).1
    exact indexes_chunkIndexes hnodup hall (by omega)

end

/-! ## A compressor that stores its input -/

theorem write_plain {p out : Bytes} (h : c.write p = .ok (c', out)) :
    out = p := by
  cases c <;> cases h <;> rfl

theorem close_plain {tail : Bytes} (h : c.close = .ok (c', tail)) :
    tail = [] := by
  cases c <;> cases h <;> rfl

theorem packing_plain {pieces : List Bytes} {out : Bytes}
    (h : Packing c pieces c' out) : out = pieces.flatten := by
  induction h with
  | nil => rfl
  | snoc h hp ih =>
    rw [ih, write_plain hp]
    simp

theorem packed_plain {bytes out : Bytes} (h : Packed o bytes out) :
    out = bytes := by
  obtain ⟨c, c', c'', pieces, front, tail, -, rfl, hpacking, hclose, rfl⟩ := h
  rw [packing_plain hpacking, close_plain hclose, List.append_nil]

theorem compression_plain {opts : WriterOptions Plain} (hcompressor : opts.compressor = none)
    (hnone : opts.compression = compressionNone) (h : Settled opts o) : o.compression = [] := by
  rcases h with ⟨rfl, -⟩ | ⟨c, compression, hchoose, rfl, -⟩
  · exact hnone
  · show compression = []
    unfold chooseCompressor at hchoose
    rw [hcompressor, hnone] at hchoose
    cases hchoose
    rfl

theorem lossless_plain {D : Unpackers} {opts : WriterOptions Plain} {skipMagic validate : Bool}
    (hcompressor : opts.compressor = none) (hnone : opts.compression = compressionNone)
    (h : Settled opts o) : Lossless D (lexerOptions skipMagic validate fun _ => none) o :=
  fun _ _ hpacked =>
    .none rfl (compression_plain hcompressor hnone h) (packed_plain hpacked)

/-- Options without a summary section. -/
def bare (chunked : Bool) : WriterOptions Plain :=
  { smallChunks with
    chunked := chunked
    skipStatistics := true
    skipRepeatedSchemas := true
    skipRepeatedChannelInfos := true
    skipAttachmentIndex := true
    skipMetadataIndex := true
    skipChunkIndex := true
    skipSummaryOffsets := true }

theorem writeFile_header (profile : Bytes) : ∃ (w : Writer Plain) (rest : Bytes),
    writeFile (bare false) ⟨profile, []⟩ [] = .ok w ∧ rest.length = 50 ∧
      w.w.out = MAGIC ++ (frame op.HEADER (Header.body ⟨profile, []⟩) ++ rest) := by
  have hrun : ∃ (w : Writer Plain) (dataEnd crc footer footerCrc : Bytes),
      writeFile (bare false) ⟨profile, []⟩ [] = .ok w ∧
      w.w.out = MAGIC ++ (op.HEADER :: le 8 (Header.body ⟨profile, []⟩).length) ++
        Header.body ⟨profile, []⟩ ++ dataEnd ++ crc ++ footer ++ footerCrc ++ MAGIC ∧
      (dataEnd ++ crc ++ footer ++ footerCrc ++ MAGIC).length = 50 :=
    ⟨_, _, _, _, _, rfl, rfl, rfl⟩
  obtain ⟨w, dataEnd, crc, footer, footerCrc, hwrite, hout, hlen⟩ := hrun
  exact ⟨w, _, hwrite, hlen, by simp [hout, frame]⟩

theorem writeFile_schema (data : Bytes) : ∃ (w : Writer Plain) (c : Chunk) (rest : Bytes),
    writeFile (bare true) ⟨[], []⟩ [.schema ⟨1, [], [], data⟩] = .ok w ∧ rest.length = 50 ∧
      c.compression = [] ∧ c.uncompressedSize = c.records.length ∧
      c.records = frame op.SCHEMA (Schema.body ⟨1, [], [], data⟩) ∧
      w.w.out = MAGIC ++ (frame op.HEADER (Header.body ⟨[], []⟩) ++
        (frame op.CHUNK c.body ++ rest)) := by
  generalize hbody : Schema.body ⟨1, [], [], data⟩ = body
  have hrun : ∃ (w : Writer Plain) (c : Chunk) (dataEnd crc footer footerCrc : Bytes),
      writeFile (bare true) ⟨[], []⟩ [.schema ⟨1, [], [], data⟩] = .ok w ∧
      w.w.out = MAGIC ++ (op.HEADER :: le 8 (Header.body ⟨[], []⟩).length) ++
        Header.body ⟨[], []⟩ ++ (op.CHUNK :: (le 8 (c.top.length + c.records.length) ++ c.top)) ++
          c.records ++ dataEnd ++ crc ++ footer ++ footerCrc ++ MAGIC ∧
      (dataEnd ++ crc ++ footer ++ footerCrc ++ MAGIC).length = 50 ∧ c.compression = [] ∧
      c.uncompressedSize = 0 + 9 + body.length ∧
      c.records = [] ++ (op.SCHEMA :: le 8 body.length) ++ body ++ [] := by
    subst hbody
    exact ⟨_, _, _, _, _, _, rfl, rfl, rfl, rfl, rfl, rfl⟩
  obtain ⟨w, c, dataEnd, crc, footer, footerCrc, hwrite, hout, hlen, hname, hsize, hrecords⟩ := hrun
  have hrecords : c.records = frame op.SCHEMA body := by simp [hrecords, frame]
  refine ⟨w, c, _, hwrite, hlen, hname, ?_, hrecords, by simp [hout, frame, Chunk.body]⟩
  rw [hsize, hrecords, length_frame, Nat.zero_add]

theorem header_refused : ∃ (w : Writer Plain) (l : Lexer) (e : Error),
    writeFile (bare false) ⟨List.replicate (2 ^ 31) 0, []⟩ [] = .ok w ∧
      newLexer ⟨w.w.out, 0, false⟩ (lexerOptions false false fun _ => none) = .ok l ∧
      e ≠ .eof ∧ Lexes noUnpackers (fun _ => 0) l [] .error e := by
  generalize hprofile : List.replicate (2 ^ 31) (0 : UInt8) = profile
  have hlen : profile.length = 2 ^ 31 := by rw [← hprofile, List.length_replicate]
  have hbody : (Header.body ⟨profile, []⟩).length = 8 + 2 ^ 31 := by
    simp [Header.body, putPrefixedString, hlen]
  obtain ⟨w, rest, hwrite, hrest, hout⟩ := writeFile_header profile
  have hsize := congrArg List.length hout
  simp only [List.length_append, length_frame, MAGIC_length] at hsize
  obtain ⟨l, hnew, hbase, hopts, -⟩ := newLexer_lead false false
    (fun _ => none) (show (bare false).skipMagic = false by rfl) hout (by omega)
  obtain ⟨l', hturn⟩ := Lexer.turn_large (D := noUnpackers) Lexer.steady_atBase hbase (by omega)
    (by rw [hopts]; exact fun h => absurd h (by decide)) (by decide) (by decide)
    (by unfold maxInt32; omega)
  obtain ⟨text, hfirst⟩ : ∃ text, l.turn noUnpackers 0 =
      (.fail .error (.wrapped text errLengthOutOfRange), l') := ⟨_, hturn 0 (by omega)⟩
  have hnext : l.next noUnpackers 1 0 =
      some (.fail .error (.wrapped text errLengthOutOfRange), l') := by
    unfold Lexer.next
    rw [hfirst]
  exact ⟨w, l, _, hwrite, hnew, Error.noConfusion, .fail ⟨1, hnext⟩⟩

/-- The schema of a chunk that is too large to be validated. -/
def largeSchema : Schema := ⟨1, [], [], List.replicate (2 ^ 30) 0⟩

theorem chunk_refused : ∃ (w : Writer Plain) (l : Lexer) (t : Token) (e : Error),
    writeFile (bare true) ⟨[], []⟩ [.schema largeSchema] = .ok w ∧
      newLexer ⟨w.w.out, 0, false⟩ (lexerOptions false true fun _ => none) = .ok l ∧
      e ≠ .eof ∧ ∀ capacities, Lexes noUnpackers capacities l [t] .error e := by
  unfold largeSchema
  generalize hdata : List.replicate (2 ^ 30) (0 : UInt8) = data
  have hlen : data.length = 2 ^ 30 := by rw [← hdata, List.length_replicate]
  have hschema : (Schema.body ⟨1, [], [], data⟩).length = 14 + 2 ^ 30 := by
    simp [Schema.body, putPrefixedString, hlen]
  obtain ⟨w, c, rest, hwrite, hrest, hname, hwhole, hrecords, hout⟩ := writeFile_schema data
  replace hrecords := congrArg List.length hrecords
  rw [length_frame] at hrecords
  have hbody : c.body.length = 40 + c.records.length := by
    rw [Chunk.body, List.length_append, Chunk.top, hname]
    simp [putPrefixedString]
  have hheader : (Header.body ⟨[], []⟩).length = 8 := rfl
  have hsize := congrArg List.length hout
  simp only [List.length_append, length_frame, MAGIC_length] at hsize
  obtain ⟨l, hnew, hbase, hopts, hroom⟩ := newLexer_lead true false
    (fun _ => none) (show (bare true).skipMagic = false by rfl) hout (by omega)
  have hchunk : ∀ rest, frame op.CHUNK c.body ++ rest =
      (op.CHUNK :: le 8 c.body.length) ++ (c.body ++ rest) := fun rest => by simp [frame]
  rw [hchunk] at hbase
  have hadmits : ∀ l' : Lexer, Lexer.Same l l' → ∀ n, l'.opts.Admits n := by
    intro l' hsame n hpos
    rw [hsame.1, hopts] at hpos
    exact absurd hpos (by decide)
  obtain ⟨l₁, hbase₁, hsame, htoken⟩ := Lexer.turn_token (D := noUnpackers) Lexer.steady_atBase
    hbase (by rw [hheader]; decide) (hadmits l (.refl l) _) (by rfl) (fun h => absurd h (by decide))
  have hopts₁ : l₁.opts = lexerOptions false true fun _ => none := hsame.1.trans hopts
  obtain ⟨l₂, hfail⟩ := Lexer.turn_chunk_large (D := noUnpackers) c.records hbase₁
    (by rw [hopts₁]; rfl) (by rw [hname]; decide) (by omega) (by omega) (hadmits l₁ hsame _)
    (.none (by rw [hopts₁]; rfl) hname rfl) (by rw [hopts₁]; rfl) (by rw [hopts₁]; rfl)
    (by rw [hsame.2, hroom]; omega) (by unfold maxInt32; omega) (by omega)
  exact ⟨w, l, _, _, hwrite, hnew, Error.noConfusion,
    Lexer.Emits.lexes (.token htoken (.nil l₁)) hfail⟩

end Go
end Mcap

import Mcap.GoLexing
import Mcap.GoStatistics

/-! # The Go lexer reads what the Go writer wrote

A closed file is a magic, records and a magic.  `fileItems` are its top-level records as the lexer
takes them, each chunk with the records of its calls, so that the tokens are those of the header,
the calls entry by entry, and the summary.  A chunk holds only schemas, channels and messages, and
those keep the order of the calls; hence what a message or a channel refers to comes before it in
the tokens as it does in the calls (`Written.backed`).

The lexer refuses records of 2 GiB and, when it validates, chunks of 1 GiB, and its scratch buffer
has room for 24 bytes of a compression; what it reads is stated for files within these limits.
-/
namespace Mcap
namespace Go

/-! ## What a call refers to -/

/-- What a call refers to is among the calls before it. -/
def Backed (before : List Call) : Call → Prop
  | .channel c => c.schemaID ≠ 0 → ∃ s, .schema s ∈ before ∧ s.id = c.schemaID
  | .message m => ∃ c, .channel c ∈ before ∧ c.id = m.channelID
  | _ => True

theorem mem_schemaIDs {calls : List Call} {id : UInt16} :
    id ∈ schemaIDs calls ↔ ∃ s, .schema s ∈ calls ∧ s.id = id := by
  simp only [schemaIDs, List.mem_filterMap]
  constructor
  · rintro ⟨c, hc, hid⟩
    cases c with
    | schema s => exact ⟨s, hc, by simpa [Call.schemaID?] using hid⟩
    | _ => cases hid
  · rintro ⟨s, hs, rfl⟩
    exact ⟨_, hs, rfl⟩

theorem mem_channelIDs {calls : List Call} {id : UInt16} :
    id ∈ channelIDs calls ↔ ∃ c, .channel c ∈ calls ∧ c.id = id := by
  simp only [channelIDs, List.mem_filterMap]
  constructor
  · rintro ⟨c, hc, hid⟩
    cases c with
    | channel c => exact ⟨c, hc, by simpa [Call.channelID?] using hid⟩
    | _ => cases hid
  · rintro ⟨c, hc, rfl⟩
    exact ⟨_, hc, rfl⟩

section
variable {κ : Type} [ResettableWriteCloser κ] [Packages κ] {opts o : WriterOptions κ}
  {header : Header} {calls cs : List Call} {es : List Entry} {w w' : Writer κ}

/-- **The writer accepts** a channel only behind its schema, and a message only behind its
channel. -/
theorem Written.backed (h : Written opts header calls w) {before after : List Call} {c : Call}
    (hcalls : calls = before ++ c :: after) : Backed before c := by
  induction h generalizing after with
  | start hnew =>
    have hlen := congrArg List.length hcalls
    rw [List.length_append, List.length_cons, List.length_nil] at hlen
    omega
  | @call calls c' w w' h hrun ih =>
    rcases List.eq_nil_or_concat after with rfl | ⟨after', d, rfl⟩
    · -- the last call
      obtain ⟨rfl, he⟩ := List.append_inj' hcalls rfl
      cases he
      obtain ⟨es, cs, hsettled, hshows, hl, ht, hc, -⟩ := h.described
      obtain ⟨es', cs', flushed, hadds, hshows', hleaves⟩ := hshows.run hrun
      cases c with
      | channel ch =>
        intro hne
        exact mem_schemaIDs.mp ((ht.schemas.mem _).mp ((ht.schemas.contains _).mp (hleaves.1 hne)))
      | message m =>
        exact mem_channelIDs.mp ((ht.channels.mem _).mp ((ht.channels.contains _).mp hleaves.1))
      | _ => trivial
    · rw [List.concat_eq_append, ← List.cons_append, ← List.append_assoc] at hcalls
      exact ih (List.append_inj' hcalls rfl).1

theorem Written.backed_filter (h : Written opts header calls w) {before after : List Call} {c : Call}
    (hcalls : calls.filter Call.inChunk = before ++ c :: after) : Backed before c := by
  obtain ⟨front, back, rfl, hfront, hback⟩ := List.filter_eq_append_iff.mp hcalls
  obtain ⟨skipped, rest, rfl, hskipped, -, -⟩ := List.filter_eq_cons_iff.mp hback
  have hsame : (front ++ skipped).filter Call.inChunk = before := by
    have hnil : skipped.filter Call.inChunk = [] :=
      List.filter_eq_nil_iff.mpr fun d hd => hskipped d hd
    rw [List.filter_append, hfront, hnil, List.append_nil]
  have hsplit : front ++ (skipped ++ c :: rest) = (front ++ skipped) ++ c :: rest := by
    rw [List.append_assoc]
  have hbacked := h.backed hsplit
  rw [← hsame]
  cases c with
  | channel ch =>
    intro hne
    obtain ⟨s, hs, hid⟩ := hbacked hne
    exact ⟨s, List.mem_filter.mpr ⟨hs, rfl⟩, hid⟩
  | message m =>
    obtain ⟨ch, hch, hid⟩ := hbacked
    exact ⟨ch, List.mem_filter.mpr ⟨hch, rfl⟩, hid⟩
  | _ => trivial

end

/-! ## The records of a file -/

open Lexer (Item Unpacks)

section
variable {κ : Type} (o : WriterOptions κ) {header : Header} {es : List Entry}

/-- The header record. -/
def headerRecord (header : Header) : UInt8 × Bytes :=
  (op.HEADER, { header with library := Writer.headerLibrary o.overrideLibrary header.library }.body)

/-- The magic at the start of a file, if there is one. -/
def lead : Bytes := if o.skipMagic then [] else MAGIC

/-- The records of the data section. -/
def dataFrames (header : Header) (es : List Entry) : List (UInt8 × Bytes) :=
  headerRecord o header :: dataRecords o es

theorem dataBytes_eq (header : Header) (es : List Entry) :
    dataBytes o header es = lead o ++ frames (dataFrames o header es) := by
  rw [dataBytes, headBytes, List.append_assoc]
  rfl

/-- The items of an entry. -/
def Entry.items : Entry → List Item
  | .record c => [.record c.record]
  | .chunk cs ids out =>
      .chunk (chunkOf o cs out) (cs.map Call.record) ::
        (if o.skipMessageIndexing then [] else indexRecords ids cs).map .record

theorem map_framed_items (es : List Entry) :
    (es.flatMap (Entry.items o)).map Item.framed = dataRecords o es := by
  have hframed : ∀ recs : List (UInt8 × Bytes), (recs.map Item.record).map Item.framed = recs := by
    intro recs
    rw [List.map_map]
    exact List.map_id _
  induction es with
  | nil => rfl
  | cons e es ih =>
    have hentry : (e.items o).map Item.framed = e.records o := by
      cases e with
      | record c => rfl
      | chunk cs ids out =>
        rw [Entry.items, List.map_cons, hframed]
        rfl
    rw [List.flatMap_cons, List.map_append, hentry, ih]
    rfl

/-- The records behind the data section: its end, the summary section, and the footer. -/
def endRecords (header : Header) (es : List Entry) (w : Writer κ) : List (UInt8 × Bytes) :=
  [dataEndRecord o header es] ++
    (groupRecords w.groups ++ w.offsetRecords (dataSection o header es).length ++
      [footerRecord w (dataSection o header es).length])

/-- The items of a file. -/
def fileItems (header : Header) (es : List Entry) (w : Writer κ) : List Item :=
  .record (headerRecord o header) :: es.flatMap (Entry.items o) ++
    (endRecords o header es w).map .record

variable {o}

theorem fileBytes_eq (header : Header) (es : List Entry) (w : Writer κ) : fileBytes o header es w =
    lead o ++ (frames ((fileItems o header es w).map Item.framed) ++ MAGIC) := by
  have hframed : ∀ recs : List (UInt8 × Bytes), (recs.map Item.record).map Item.framed = recs := by
    intro recs
    rw [List.map_map]
    exact List.map_id _
  have hdata : (Item.record (headerRecord o header) :: es.flatMap (Entry.items o)).map Item.framed =
      dataFrames o header es := by
    rw [List.map_cons, map_framed_items]
    rfl
  rw [fileItems, List.map_append, hdata, hframed, fileBytes, endRecords, summarySection]
  generalize (dataSection o header es).length = pos
  rw [dataSection, dataBytes_eq]
  simp only [frames_append, List.append_assoc]

/-! ## Their opcodes and lengths -/

theorem mem_groupIf {present : Bool} {groupOpcode : UInt8} {records : List (UInt8 × Bytes)}
    {r : UInt8 × Bytes} (hr : r ∈ groupRecords (groupIf present groupOpcode records))
    (h : ∀ r ∈ records, r.1 = groupOpcode) : r.1 = groupOpcode := by
  unfold groupIf groupRecords at hr
  split at hr
  · rw [List.flatMap_cons, List.flatMap_nil, List.append_nil] at hr
    exact h r hr
  · cases hr

theorem mem_summary {w : Writer κ} {pos : Nat} {r : UInt8 × Bytes}
    (hr : r ∈ groupRecords w.groups ++ w.offsetRecords pos) :
    r.1 ∈ [op.SCHEMA, op.CHANNEL, op.STATISTICS, op.CHUNK_INDEX, op.ATTACHMENT_INDEX,
      op.METADATA_INDEX, op.SUMMARY_OFFSET] := by
  have hknown : ∀ {α : Type} {opcode : UInt8} {ids : List UInt16} {f : UInt16 → Option α}
      {g : α → Bytes}, ∀ r ∈ ids.filterMap (fun id => (f id).map fun x => (opcode, g x)),
        r.1 = opcode := by
    intro α opcode ids f g r hr
    obtain ⟨id, -, hid⟩ := List.mem_filterMap.mp hr
    obtain ⟨x, -, rfl⟩ := Option.map_eq_some_iff.mp hid
    rfl
  have hmap : ∀ {α : Type} {opcode : UInt8} {l : List α} {g : α → Bytes},
      ∀ r ∈ l.map (fun x => (opcode, g x)), r.1 = opcode := by
    intro α opcode l g r hr
    obtain ⟨x, -, rfl⟩ := List.mem_map.mp hr
    rfl
  rcases List.mem_append.mp hr with hgroup | hoffset
  · unfold Writer.groups at hgroup
    simp only [groupRecords_append, List.mem_append] at hgroup
    rcases hgroup with ((((h | h) | h) | h) | h) | h
    · rw [mem_groupIf h (by exact hknown)]
      simp
    · rw [mem_groupIf h (by exact hknown)]
      simp
    · rw [mem_groupIf h (by simp)]
      simp
    · rw [mem_groupIf h hmap]
      simp
    · rw [mem_groupIf h hmap]
      simp
    · rw [mem_groupIf h hmap]
      simp
  · unfold Writer.offsetRecords at hoffset
    split at hoffset
    · cases hoffset
    · rw [hmap r hoffset]
      simp

end

theorem mem_endRecords {κ : Type} {o : WriterOptions κ} {header : Header} {es : List Entry}
    {w : Writer κ} {r : UInt8 × Bytes} (hr : r ∈ endRecords o header es w) :
    r.1 ∈ [op.SCHEMA, op.CHANNEL, op.STATISTICS, op.CHUNK_INDEX, op.ATTACHMENT_INDEX,
      op.METADATA_INDEX, op.SUMMARY_OFFSET] ++ [op.DATA_END, op.FOOTER] := by
  rcases List.mem_append.mp hr with hr | hr
  · rw [List.mem_singleton.mp hr]
    exact List.mem_append_right _ List.mem_cons_self
  · rcases List.mem_append.mp hr with hr | hr
    · exact List.mem_append_left _ (mem_summary hr)
    · rw [List.mem_singleton.mp hr]
      exact List.mem_append_right _ (List.mem_cons_of_mem _ List.mem_cons_self)

theorem opcode_indexRecords {κ : Type} (o : WriterOptions κ) (ids : List UInt16) (cs : List Call)
    {r : UInt8 × Bytes}
    (hr : r ∈ if o.skipMessageIndexing then [] else indexRecords ids cs) :
    r.1 = op.MESSAGE_INDEX := by
  split at hr
  · cases hr
  · obtain ⟨id, -, hid⟩ := List.mem_filterMap.mp hr
    split at hid
    · cases hid
    · cases hid
      rfl

/-! ## What the lexer can take -/

section
variable {κ : Type} [ResettableWriteCloser κ] [Packages κ] {D : Unpackers} {lo : LexerOptions}
  {opts o : WriterOptions κ} {header : Header} {calls cs : List Call} {es : List Entry}
  {w w' : Writer κ} {decompressors : Bytes → Option Decompressor}

/-- The lexer undoes the compression of the writer. -/
def Lossless (D : Unpackers) (lo : LexerOptions) (o : WriterOptions κ) : Prop :=
  ∀ bytes out, Packed o bytes out → Unpacks D lo o.compression out bytes

/-- A file within the limits of the lexer. -/
structure WithinLimits (opts : WriterOptions κ) (validateChunkCRCs : Bool) (calls : List Call)
    (file : Bytes) : Prop where
  compression : ∀ custom, opts.compressor = some custom → custom.compression.length ≤ 24
  inChunk : ∀ c ∈ calls, c.inChunk = true → c.body.length < maxInt32
  records : ∀ recs, file = lead opts ++ (frames recs ++ MAGIC) →
    ∀ r ∈ recs, r.1 ≠ op.CHUNK → r.1 ≠ op.ATTACHMENT → r.2.length < maxInt32
  chunks : ∀ cs ∈ (chunking opts calls).chunks, (callBytes cs).length < 2 ^ 63 ∧
    (validateChunkCRCs = true → (callBytes cs).length * 2 < maxInt32)
  file : file.length < 2 ^ 63

theorem Settled.length_compression (h : Settled opts o) (hchunked : o.chunked = true)
    (hcustom : ∀ custom, opts.compressor = some custom → custom.compression.length ≤ 24) :
    o.compression.length ≤ 24 := by
  rcases h with ⟨rfl, hoff⟩ | ⟨c, compression, hchoose, rfl, -⟩
  · rw [hoff] at hchunked
    cases hchunked
  · show compression.length ≤ 24
    unfold chooseCompressor at hchoose
    cases hopt : opts.compressor with
    | some custom =>
      rw [hopt] at hchoose
      simp only at hchoose
      split at hchoose
      · cases hchoose
      · cases hchoose
        exact hcustom custom hopt
    | none =>
      rw [hopt] at hchoose
      simp only at hchoose
      split at hchoose
      · rename_i hzstd
        cases hzw : Packages.zstd (κ := κ) opts.compressionLevel with
        | error e =>
          rw [hzw] at hchoose
          cases hchoose
        | ok zw =>
          rw [hzw] at hchoose
          cases hchoose
          rw [hzstd]
          decide
      · split at hchoose
        · rename_i hlz4
          cases hchoose
          rw [hlz4]
          decide
        · split at hchoose
          · rename_i hnone
            cases hchoose
            rw [hnone]
            decide
          · cases hchoose

omit [ResettableWriteCloser κ] [Packages κ] in
theorem inChunk_of_chunks (o : WriterOptions κ) (calls : List Call) :
    ∀ cs ∈ (chunking o calls).chunks, ∀ c ∈ cs, c.inChunk = true := by
  suffices h : (∀ cs ∈ (chunking o calls).closed, ∀ c ∈ cs, c.inChunk = true) ∧
      ∀ c ∈ (chunking o calls).active, c.inChunk = true by
    intro cs hcs
    unfold Chunking.chunks at hcs
    split at hcs
    · exact h.1 cs hcs
    · rcases List.mem_append.mp hcs with hcs | hcs
      · exact h.1 cs hcs
      · exact List.mem_singleton.mp hcs ▸ h.2
  induction calls using List.reverseRecOn with
  | nil => exact ⟨fun cs h => (by cases h), fun c h => (by cases h)⟩
  | append_singleton calls d ih =>
    obtain ⟨hclosed, hactive⟩ := ih
    rw [chunking_append, Chunking.add]
    split
    · rename_i hd
      have hdin : d.inChunk = true := (Bool.and_eq_true_iff.mp hd).2
      have hnext : ∀ c ∈ (chunking o calls).active ++ [d], c.inChunk = true := by
        intro c hc
        rcases List.mem_append.mp hc with hc | hc
        · exact hactive c hc
        · exact List.mem_singleton.mp hc ▸ hdin
      split
      · refine ⟨fun cs hcs => ?_, fun c h => (by cases h)⟩
        rcases List.mem_append.mp hcs with hcs | hcs
        · exact hclosed cs hcs
        · exact List.mem_singleton.mp hcs ▸ hnext
      · exact ⟨hclosed, hnext⟩
    · exact ⟨hclosed, hactive⟩

theorem readable_of_short {r : UInt8 × Bytes} (hmax : lo.maxRecordSize = 0)
    (hchunk : r.1 ≠ op.CHUNK) (hreserved : r.1 ≠ opReserved) (hattachment : r.1 ≠ op.ATTACHMENT)
    (hshort : r.2.length < maxInt32) : Lexer.Readable lo r where
  chunk h := absurd h hchunk
  reserved := hreserved
  short _ := hshort
  attachment h := absurd h hattachment
  admits h := by
    rw [hmax] at h
    exact absurd h (by decide)

theorem readable_call (hmax : lo.maxRecordSize = 0) (hcallback : lo.attachmentCallback = none)
    {c : Call} (hlong : c.body.length < 2 ^ 63)
    (hshort : c.opcode ≠ op.ATTACHMENT → c.body.length < maxInt32) :
    Lexer.Readable lo c.record := by
  cases c with
  | attachment a =>
    exact
      { chunk := fun h => absurd h (by simp [Call.record, Call.opcode, op.ATTACHMENT, op.CHUNK])
        reserved := by simp [Call.record, Call.opcode, op.ATTACHMENT, opReserved]
        short := fun h => absurd rfl h
        attachment := fun _ => ⟨hlong, hcallback⟩
        admits := fun h => by
          rw [hmax] at h
          exact absurd h (by decide) }
  | _ =>
    refine readable_of_short hmax ?_ ?_ ?_ (hshort ?_) <;>
      simp [Call.record, Call.opcode, op.SCHEMA, op.CHANNEL, op.MESSAGE, op.METADATA, op.CHUNK,
        op.ATTACHMENT, opReserved]

theorem Settled.lead_eq (h : Settled opts o) : lead o = lead opts := by
  rcases h with ⟨rfl, -⟩ | ⟨c, compression, -, rfl, -⟩ <;> rfl

theorem readable_chunk {validate skipMagic : Bool}
    (hlossless : Lossless D (lexerOptions skipMagic validate decompressors) o)
    (hname : o.compression.length ≤ 24) {out : Bytes} (hpacked : Packed o (callBytes cs) out)
    (hlong : (chunkOf o cs out).body.length < 2 ^ 63)
    (hvalid : validate = true → (callBytes cs).length * 2 < maxInt32)
    (hcalls : ∀ c ∈ cs, c.inChunk = true ∧ c.body.length < maxInt32) :
    (Item.chunk (chunkOf o cs out) (cs.map Call.record)).Readable D
      (lexerOptions skipMagic validate decompressors) := by
  have hadmits : ∀ n, (lexerOptions skipMagic validate decompressors).Admits n :=
    fun n h => absurd h (show ¬ (0 : Int) < 0 by decide)
  refine .chunk rfl hname hlong (hadmits _) (hlossless _ _ hpacked) (fun hvalidate => ?_) ?_
  · exact
      { size := rfl
        lt := hvalid hvalidate
        within := fun h => absurd h (show ¬ (0 : Int) < 0 by decide)
        crc := by
          show (hashed o.includeCRC (callBytes cs)).finalize = 0 ∨
            (hashed o.includeCRC (callBytes cs)).finalize = _
          cases o.includeCRC with
          | false => exact .inl (show crc32 [] = 0 by decide)
          | true => exact .inr rfl }
  · intro r hr
    obtain ⟨c, hc, rfl⟩ := List.mem_map.mp hr
    obtain ⟨hin, hshort⟩ := hcalls c hc
    have hlt : c.body.length < 2 ^ 63 := by
      unfold maxInt32 at hshort
      omega
    exact readable_call rfl rfl hlt fun _ => hshort

/-- **Every record of a file** can be taken by the lexer. -/
theorem readable_items {validate skipMagic : Bool} {file : Bytes} (hsettled : Settled opts o)
    (hfin : Finished o header calls es w)
    (hlossless : Lossless D (lexerOptions skipMagic validate decompressors) o)
    (hlimits : WithinLimits opts validate calls file) (hfile : file = fileBytes o header es w) :
    ∀ i ∈ fileItems o header es w, i.Readable D (lexerOptions skipMagic validate decompressors) := by
  rw [fileBytes_eq] at hfile
  have hmem : ∀ i ∈ fileItems o header es w, i.framed.2.length < 2 ^ 63 ∧
      (i.framed.1 ≠ op.CHUNK → i.framed.1 ≠ op.ATTACHMENT → i.framed.2.length < maxInt32) := by
    intro i hi
    have hin : i.framed ∈ (fileItems o header es w).map Item.framed := List.mem_map_of_mem hi
    refine ⟨?_, hlimits.records _ (by rw [← hsettled.lead_eq]; exact hfile) _ hin⟩
    have hlen := length_le_frames hin
    have hall := hlimits.file
    rw [hfile] at hall
    simp only [List.length_append] at hall
    omega
  have hplain : ∀ r : UInt8 × Bytes, Item.record r ∈ fileItems o header es w →
      r.1 ≠ op.CHUNK → r.1 ≠ opReserved → r.1 ≠ op.ATTACHMENT →
        (Item.record r).Readable D (lexerOptions skipMagic validate decompressors) :=
    fun r hr hchunk hreserved hattachment => .record
      (readable_of_short rfl hchunk hreserved hattachment ((hmem _ hr).2 hchunk hattachment))
  intro i hi
  rcases List.mem_append.mp hi with hdata | hend
  · rcases List.mem_cons.mp hdata with rfl | hentry
    · exact hplain _ hi (by simp [headerRecord, op.HEADER, op.CHUNK])
        (by simp [headerRecord, op.HEADER, opReserved])
        (by simp [headerRecord, op.HEADER, op.ATTACHMENT])
    · obtain ⟨e, he, hie⟩ := List.mem_flatMap.mp hentry
      cases e with
      | record c =>
        obtain rfl := List.mem_singleton.mp hie
        refine .record (readable_call rfl rfl (hmem _ hi).1 fun hop => (hmem _ hi).2 ?_ hop)
        cases c <;>
          simp [Item.framed, Call.record, Call.opcode, op.SCHEMA, op.CHANNEL, op.MESSAGE,
            op.ATTACHMENT, op.METADATA, op.CHUNK]
      | chunk cs ids out =>
        rcases List.mem_cons.mp hie with rfl | hindex
        · have hcs : cs ∈ (chunking o calls).chunks := by
            rw [← hfin.chunked]
            exact List.mem_filterMap.mpr ⟨_, he, rfl⟩
          have hchunked : o.chunked = true := by
            by_contra hoff
            rw [chunking_unchunked (by simpa using hoff)] at hcs
            cases hcs
          have hcs' : cs ∈ (chunking opts calls).chunks := by
            rw [← hsettled.chunking]
            exact hcs
          obtain ⟨-, hvalid⟩ := hlimits.chunks cs hcs'
          refine readable_chunk hlossless (hsettled.length_compression hchunked hlimits.compression)
            (hfin.packed cs ids out he) (hmem _ hi).1 hvalid fun c hc => ?_
          have hin := inChunk_of_chunks o calls cs hcs c hc
          have hcall : c ∈ calls :=
            hfin.perm.mem_iff.mp (List.mem_flatMap.mpr ⟨_, he, hc⟩)
          exact ⟨hin, hlimits.inChunk c hcall hin⟩
        · obtain ⟨r, hr, rfl⟩ := List.mem_map.mp hindex
          have hop := opcode_indexRecords _ _ _ hr
          exact hplain r hi (by rw [hop]; decide) (by rw [hop]; decide) (by rw [hop]; decide)
  · obtain ⟨r, hr, rfl⟩ := List.mem_map.mp hend
    have hop := mem_endRecords hr
    exact hplain r hi (fun he => absurd (he ▸ hop) (by decide))
      (fun he => absurd (he ▸ hop) (by decide)) (fun he => absurd (he ▸ hop) (by decide))

end

/-! ## The tokens of a file -/

/-- The token is a schema, a channel or a message. -/
def Token.isData (t : Token) : Bool :=
  t.type = .schema || t.type = .channel || t.type = .message

/-- The token is a message. -/
def Token.isMessage (t : Token) : Bool := t.type = .message

/-- The token of a call that writes a schema, a channel or a message. -/
def Call.token (c : Call) : Token :=
  match c with
  | .schema s => ⟨.schema, s.body⟩
  | .channel c => ⟨.channel, c.body⟩
  | .message m => ⟨.message, m.body⟩
  | .attachment a => ⟨.error, a.body⟩
  | .metadata m => ⟨.metadata, m.body⟩

theorem filter_tokens_calls (cs : List Call) :
    (Lexer.tokens (cs.map Call.record)).filter Token.isData =
      (cs.filter Call.inChunk).map Call.token := by
  induction cs with
  | nil => rfl
  | cons c cs ih =>
    have hcons : Lexer.tokens ((c :: cs).map Call.record) =
        Lexer.tokens [c.record] ++ Lexer.tokens (cs.map Call.record) := by
      rw [List.map_cons, ← Lexer.tokens_append]
      rfl
    rw [hcons, List.filter_append, ih]
    cases c <;> rfl

theorem filter_tokens_of (recs : List (UInt8 × Bytes))
    (h : ∀ r ∈ recs, ∀ type, tokenType? r.1 = some type →
      Token.isData ⟨type, r.2⟩ = false) : (Lexer.tokens recs).filter Token.isData = [] := by
  refine List.filter_eq_nil_iff.mpr fun t ht => ?_
  obtain ⟨r, hr, hmap⟩ := List.mem_filterMap.mp ht
  obtain ⟨type, htype, rfl⟩ := Option.map_eq_some_iff.mp hmap
  rw [h r hr type htype]
  exact Bool.false_ne_true

theorem tokens_records (recs : List (UInt8 × Bytes)) :
    (recs.map Item.record).flatMap Item.tokens = Lexer.tokens recs := by
  induction recs with
  | nil => rfl
  | cons r recs ih =>
    rw [List.map_cons, List.flatMap_cons, ih]
    show Lexer.tokens [r] ++ _ = Lexer.tokens ([r] ++ recs)
    rw [Lexer.tokens_append]

section
variable {κ : Type} {o : WriterOptions κ} {header : Header} {es : List Entry} {w : Writer κ}

theorem filter_tokens_entries (es : List Entry) :
    ((es.flatMap (Entry.items o)).flatMap Item.tokens).filter Token.isData =
      ((es.flatMap Entry.flat).filter Call.inChunk).map Call.token := by
  induction es with
  | nil => rfl
  | cons e es ih =>
    rw [List.flatMap_cons, List.flatMap_append, List.filter_append, ih, List.flatMap_cons,
      List.filter_append, List.map_append]
    congr 1
    cases e with
    | record c =>
      rw [Entry.items, List.flatMap_cons, List.flatMap_nil, List.append_nil]
      exact filter_tokens_calls [c]
    | chunk cs ids out =>
      rw [Entry.items, List.flatMap_cons, tokens_records, List.filter_append,
        filter_tokens_of (if o.skipMessageIndexing then [] else indexRecords ids cs),
        List.append_nil]
      · exact filter_tokens_calls cs
      · intro r hr type htype
        rw [opcode_indexRecords _ _ _ hr] at htype
        cases htype
        rfl

theorem of_ite_eq_some {c : Prop} [Decidable c] {a b : TokenType} {x : Option TokenType}
    (h : (if c then some a else x) = some b) (hne : a ≠ b) : x = some b := by
  by_cases hc : c
  · rw [if_pos hc] at h
    exact absurd (Option.some.inj h) hne
  · rwa [if_neg hc] at h

theorem tokenType?_eq_message {opcode : UInt8} (h : tokenType? opcode = some .message) :
    opcode = op.MESSAGE := by
  unfold tokenType? at h
  by_contra hne
  rw [if_neg hne] at h
  -- all other opcodes have other types
  repeat replace h := of_ite_eq_some h (by decide)
  cases h

theorem tokens_fileItems (o : WriterOptions κ) (header : Header) (es : List Entry) (w : Writer κ) :
    ∃ rest, ((fileItems o header es w).flatMap Item.tokens).filter Token.isData =
      ((es.flatMap Entry.flat).filter Call.inChunk).map Call.token ++ rest ∧
        ∀ t ∈ rest, t.type ≠ .message := by
  refine ⟨(Lexer.tokens (endRecords o header es w)).filter Token.isData, ?_, fun t ht => ?_⟩
  · have hheader : (Lexer.tokens [headerRecord o header]).filter Token.isData = [] := rfl
    rw [fileItems, List.flatMap_append, List.flatMap_cons, tokens_records, List.filter_append,
      List.filter_append, filter_tokens_entries]
    show (Lexer.tokens [headerRecord o header]).filter Token.isData ++ _ ++ _ = _
    rw [hheader, List.nil_append]
  · have hmem := (List.mem_filter.mp ht).1
    obtain ⟨r, hr, hmap⟩ := List.mem_filterMap.mp hmem
    obtain ⟨type, htype, rfl⟩ := Option.map_eq_some_iff.mp hmap
    rintro rfl
    exact absurd (tokenType?_eq_message htype ▸ mem_endRecords hr) (by decide)

end

/-- In front of a token there is that of a channel, and in front of this that of its schema. -/
def Preceded (before : List Token) (channelID : UInt16) : Prop :=
  ∃ (front back : List Token) (record : Bytes) (c : Channel),
    before = front ++ ⟨.channel, record⟩ :: back ∧ parseChannel record = .ok c ∧ c.id = channelID ∧
      (c.schemaID ≠ 0 → ∃ (record : Bytes) (s : Schema), ⟨.schema, record⟩ ∈ front ∧
        parseSchema record = .ok s ∧ s.id = c.schemaID)

section
variable {calls : List Call} {ts rest : List Token}

theorem parse_messages
    (h : ts.filter Token.isData = (calls.filter Call.inChunk).map Call.token ++ rest)
    (hrest : ∀ t ∈ rest, t.type ≠ .message) :
    (ts.filter Token.isMessage).map (fun t => parseMessage t.record) =
      (messages calls).map .ok := by
  have hboth : ts.filter Token.isMessage = (ts.filter Token.isData).filter Token.isMessage := by
    rw [List.filter_filter]
    refine List.filter_congr fun t _ => ?_
    unfold Token.isMessage Token.isData
    by_cases ht : t.type = .message <;> simp [ht]
  have hnil : rest.filter Token.isMessage = [] :=
    List.filter_eq_nil_iff.mpr fun t ht => by simpa [Token.isMessage] using hrest t ht
  rw [hboth, h, List.filter_append, hnil, List.append_nil]
  clear h hboth
  induction calls with
  | nil => rfl
  | cons c calls ih =>
    cases c with
    | message m =>
      show parseMessage m.body :: _ = .ok m :: _
      rw [parseMessage_body]
      congr 1
    | _ => exact ih

theorem preceded_of_filter
    (h : ts.filter Token.isData = (calls.filter Call.inChunk).map Call.token ++ rest)
    (hrest : ∀ t ∈ rest, t.type ≠ .message)
    (hbacked : ∀ before c after, calls.filter Call.inChunk = before ++ c :: after → Backed before c)
    (hshort : ∀ c ∈ calls, c.inChunk = true → c.body.length < 2 ^ 32)
    {before after : List Token} {t : Token} (hts : ts = before ++ t :: after)
    (ht : t.type = .message) :
    ∃ m, t.record = m.body ∧ .message m ∈ calls ∧ Preceded before m.channelID := by
  have hdata : t.isData = true := by simp [Token.isData, ht]
  have hfilter : (calls.filter Call.inChunk).map Call.token ++ rest =
      before.filter Token.isData ++ t :: after.filter Token.isData := by
    rw [← h, hts, List.filter_append, List.filter_cons_of_pos hdata]
  -- the token is one of the calls
  obtain ⟨pre, d, post, hcalls, hpre, hd⟩ : ∃ pre d post,
      calls.filter Call.inChunk = pre ++ d :: post ∧ pre.map Call.token = before.filter Token.isData ∧
        d.token = t := by
    rcases List.append_eq_append_iff.mp hfilter with ⟨bs, hbefore, hrest'⟩ | ⟨bs, hmap, hbs⟩
    · exact absurd ht (hrest t (by rw [hrest']; simp))
    · cases bs with
      | nil => exact absurd ht (hrest t (by rw [List.nil_append] at hbs; rw [← hbs]; simp))
      | cons b bs =>
        obtain ⟨rfl, -⟩ := List.cons.inj hbs
        obtain ⟨pre, post, hcalls, hpre, hpost⟩ := List.map_eq_append_iff.mp hmap
        obtain ⟨d, post, rfl, hd, -⟩ := List.map_eq_cons_iff.mp hpost
        exact ⟨pre, d, post, hcalls, hpre, hd⟩
  have hmem : ∀ c ∈ pre, c ∈ calls ∧ c.inChunk = true := by
    intro c hc
    have hin : c ∈ calls.filter Call.inChunk := by
      rw [hcalls]
      exact List.mem_append_left _ hc
    exact List.mem_filter.mp hin
  have hdcalls : d ∈ calls := by
    have hin : d ∈ calls.filter Call.inChunk := by
      rw [hcalls]
      exact List.mem_append_right _ List.mem_cons_self
    exact (List.mem_filter.mp hin).1
  subst hd
  cases d with
  | message m =>
    refine ⟨m, rfl, hdcalls, ?_⟩
    obtain ⟨c, hc, hid⟩ := hbacked _ _ _ hcalls
    obtain ⟨pre₁, pre₂, rfl⟩ := List.append_of_mem hc
    have hsplit : calls.filter Call.inChunk =
        pre₁ ++ .channel c :: (pre₂ ++ .message m :: post) := by
      rw [hcalls, List.append_assoc, List.cons_append]
    have hschema := hbacked _ _ _ hsplit
    rw [List.map_append, List.map_cons] at hpre
    obtain ⟨front, back, rfl, hfront, hback⟩ := List.filter_eq_append_iff.mp hpre.symm
    obtain ⟨skipped, back', rfl, -, -, -⟩ := List.filter_eq_cons_iff.mp hback
    obtain ⟨hcin, hcshort⟩ := hmem _ hc
    refine ⟨front ++ skipped, back', c.body, c, by rw [List.append_assoc]; rfl,
      parseChannel_body (hshort _ hcin hcshort), hid, fun hne => ?_⟩
    obtain ⟨s, hs, hsid⟩ := hschema hne
    obtain ⟨hsin, hsshort⟩ := hmem _ (List.mem_append_left _ hs)
    refine ⟨s.body, s, List.mem_append_left _ ?_, parseSchema_body (hshort _ hsin hsshort), hsid⟩
    have hfrontmem : Call.token (.schema s) ∈ front.filter Token.isData := by
      rw [hfront]
      exact List.mem_map_of_mem hs
    exact (List.mem_filter.mp hfrontmem).1
  | _ => cases ht

end

end Go
end Mcap

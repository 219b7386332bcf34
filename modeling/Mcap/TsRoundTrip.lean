import Mcap.TsBalance
import Mcap.TsIndexes
import Mcap.TsFragments
import Mcap.TsLocality

/-! # What the TypeScript writer writes, the stream reader reads

A file of the writer is valid for the stream reader (`validFile`) if what it has been told fits
(`SoundRun`), and what is read are the messages that were accepted, each behind its channel and its
schema, as they were registered (`fileOf_faithful`); the checksums are right, the statistics are those of the data section,
and a schema or a channel of the summary is in the data section, if every one that is repeated there was
needed by a message.

Otherwise one of these fails: a message of an unknown channel, which is refused, is counted
(`refused_is_counted`).
-/
namespace Mcap
namespace Ts

open McapRecordBuilder BufferBuilder McapStreamReader

section
variable {options : McapWriterOptions} {B : Base} {w w' : McapWriter} {flushed pending : List Item}
  {inner told : List TypedMcapRecord}

/-! ## From the start to the end of the data section -/

theorem balanced_start {header : Header} (hfits : (TypedMcapRecord.header header).Fits)
    (hstart : (McapWriter.new options).start header = .ok w) :
    Balanced options (.new options) w [] ∧ w.schemas.values = [] ∧ w.channels.values = [] ∧
      w.nextSchemaId = 1 ∧ w.nextChannelId = options.startChannelId ∧
      w.dataSectionCrc.isSome = true := by
  obtain ⟨w', hstart', hregistered, hlaid, -, hcrc⟩ := start_spec options header
  rw [hstart] at hstart'
  cases hstart'
  cases hstart
  refine ⟨⟨hregistered, ⟨fun id hid => absurd hid List.not_mem_nil, fun id hid => absurd hid
    List.not_mem_nil⟩, ?_, _, _, _, hlaid, ?_⟩, rfl, rfl, rfl, rfl, hcrc⟩
  · exact ⟨fun s hs => absurd hs List.not_mem_nil, fun c hc => absurd hc List.not_mem_nil,
      fun id hid => absurd hid List.not_mem_nil, fun id hid => absurd hid List.not_mem_nil,
      fun front m back heq => absurd (congrArg List.length heq) (by simp)⟩
  · have hindices : ∀ {α : Type} {use : Bool} {l : List α},
        (if use = true then some [] else none) = some l → l = [] := by
      intro α use l hl
      split at hl
      · exact (Option.some.inj hl).symm
      · cases hl
    constructor
    · rfl
    · rfl
    · intro r hr
      rw [List.mem_singleton.mp hr]
      exact hfits
    · intro i hi
      rw [List.mem_singleton.mp hi]
      exact ⟨hfits, fun r hr => absurd hr List.not_mem_nil, Nat.zero_le _⟩
    · exact Nat.zero_le _
    · exact fun _ _ => show 0 * 16 < 2 ^ 32 by decide
    · exact fun _ => rfl
    · intro hne
      by_contra huse
      exact hne (show (if options.useStatistics = true then _ else none) = none from if_neg huse)
    · intro s hs
      have hzero : s = .zero := by
        change (if options.useStatistics = true then some Statistics.zero else none) = some s at hs
        split at hs
        · exact (Option.some.inj hs).symm
        · cases hs
      subst hzero
      exact ⟨rfl, rfl, rfl, rfl, rfl, rfl, fun _ => rfl, fun _ _ hget => absurd hget (Option.some_ne_none _).symm⟩
    · intro l hl i hi
      rw [hindices hl] at hi
      cases hi
    · intro l hl i hi
      rw [hindices hl] at hi
      cases hi

theorem numMessages_finalizeChunk {c : ChunkBuilder}
    (h : (w.finalizeChunk options).chunkBuilder = some c) : c.numMessages = 0 := by
  rcases finalizeChunk_cases options w with ⟨hsame, hzero⟩ | ⟨c', hchunk, hmessages⟩
  · exact hzero c (hsame ▸ h)
  · rw [finalizeChunk_eq hchunk hmessages] at h
    cases h
    rfl

/-- **The end of the data section**: nothing waits any more. -/
theorem told_dataWritten (h : Laid options B w flushed pending inner none)
    (ht : Told options B w flushed pending inner told) (hcompression : CompressionFits options) :
    ∃ items, Laid options B (dataWritten options w) items [] [] none ∧
      Told options B (dataWritten options w) items [] [] told := by
  obtain ⟨closed, inner', hlaid, hcontents, hclosed, hcloses⟩ := h.closes
  -- nothing is left in the chunk
  have hlength : messagesOf inner = [] → inner = [] := ht.messages
  have hempty : messagesOf inner' = [] := by
    cases hchunk : (w.finalizeChunk options).chunkBuilder with
    | none => rw [hlaid.closed hchunk]; rfl
    | some c =>
      have hcount := (hlaid.opened c hchunk).1.count
      have hzero : c.totalMessageCount = 0 := numMessages_finalizeChunk hchunk
      rw [hzero, logTimes_eq, List.length_map] at hcount
      exact List.eq_nil_of_length_eq_zero hcount.symm
  obtain rfl : inner' = [] := by
    generalize (w.finalizeChunk options).statistics = statistics at hcloses
    cases hcloses with
    | nothing =>
      rw [contentsOf_nil, List.nil_append] at hcontents
      rw [hcontents] at hempty ⊢
      exact hlength hempty
    | chunk => rfl
  rw [List.append_nil] at hcontents
  obtain ⟨hpending, hchunks⟩ := pending_stands h ht
  have hjournal : journal (flushed ++ closed ++ pending) [] [] = journal flushed pending inner := by
    unfold journal
    rw [contentsOf_append, contentsOf_append, hcontents, contentsOf_nil, List.append_nil, List.append_nil,
      List.append_assoc]
    by_cases hnil : closed = []
    · subst hnil
      rw [contentsOf_nil] at hcontents
      rw [← hcontents, List.append_nil, List.nil_append]
    · rw [(hclosed hnil).1, contentsOf_nil, List.nil_append, List.append_nil]
  have hgrows : (B.front ++ Item.allBytes flushed).length ≤
      (B.front ++ Item.allBytes (flushed ++ closed ++ pending)).length := by
    simp only [List.length_append, Item.allBytes_append]
    omega
  have hleaves : Leaves w (dataWritten options w) := (leaves_finalizeChunk w).trans (leaves_flushData _)
  obtain ⟨hstands, hused, hcounts⟩ : (∀ i ∈ closed, i.Stands) ∧
      ((dataWritten options w).statistics ≠ none → w.statistics ≠ none) ∧
      ∀ s, (dataWritten options w).statistics = some s →
        s.Counts (journal flushed pending inner) (flushed ++ closed) := by
    change _ ∧ ((w.finalizeChunk options).statistics ≠ none → _) ∧
      ∀ s, (w.finalizeChunk options).statistics = some s → _
    generalize (w.finalizeChunk options).statistics = statistics at hcloses ⊢
    cases hcloses with
    | nothing =>
      refine ⟨fun i hi => absurd hi List.not_mem_nil, id, ?_⟩
      rw [List.append_nil]
      exact ht.counts
    | chunk hholds hmessages =>
      rw [contentsOf_chunkItems] at hcontents
      subst hcontents
      refine ⟨stands_chunkItems hholds hmessages hcompression
        (fun r hr => ht.fits r (List.mem_append_right _ (List.mem_append_right _ hr))) ht.room ht.entries,
        fun hne hnone => hne (by rw [hnone]; rfl), ?_⟩
      intro s hs
      obtain ⟨s', hs', rfl⟩ := Option.map_eq_some_iff.mp hs
      have hcounts := ht.counts s' hs'
      exact { hcounts with
        chunkCount := by
          rw [chunksOf_append, List.length_append, length_chunksOf_chunkItems]
          exact congrArg (· + 1) hcounts.chunkCount }
  refine ⟨flushed ++ closed ++ pending, hlaid.flushData, ?_⟩
  constructor
  · rw [hjournal]
    exact ht.contents
  · rw [hjournal]
    exact ht.header
  · rw [hjournal]
    exact ht.fits
  · intro i hi
    rcases List.mem_append.mp hi with hi | hi
    · exact (List.mem_append.mp hi).elim (ht.items i) (hstands i)
    · exact hpending i hi
  · exact Nat.zero_le _
  · exact fun _ _ => show 0 * 16 < 2 ^ 32 by decide
  · exact fun _ => rfl
  · exact fun hne => ht.used (hused hne)
  · intro s hs
    rw [hjournal]
    exact { hcounts s hs with
      chunkCount := by
        rw [chunksOf_append _ pending, hchunks, List.append_nil]
        exact (hcounts s hs).chunkCount }
  · rw [hleaves.attachmentIndices]
    exact fun l hl i hi => (ht.attachmentIndices l hl i hi).mono hgrows
  · rw [hleaves.metadataIndices]
    exact fun l hl i hi => (ht.metadataIndices l hl i hi).mono hgrows

end

/-! ## What there is to read -/

/-- A record as it is read: the numbers of schemas and channels have wrapped. -/
def TypedMcapRecord.asRead : TypedMcapRecord → TypedMcapRecord
  | .statistics s => .statistics s.wrapped
  | r => r

/-- A record with its bytes. -/
def pieceOf (r : TypedMcapRecord) : Piece := ⟨r.opcode, r.body, r.asRead⟩

/-- A record of a file, with those of a chunk. -/
def Item.entry (i : Item) : Entry := ⟨pieceOf i.record, i.inner.map pieceOf⟩

namespace Parts

/-- The records behind the data section, but for the footer. -/
def trailer (p : Parts) : List TypedMcapRecord :=
  .dataEnd p.dataEnd :: (recordsOf p.groups ++ p.offsets.map .summaryOffset)

def entries (p : Parts) : List Entry :=
  p.items.map Item.entry ++ p.trailer.map fun r => (Item.plain r).entry

/-- **The records that there are to read.** -/
def records (opts : McapReaderOptions) (p : Parts) : List TypedMcapRecord :=
  p.entries.flatMap (Entry.shown opts) ++ [.footer p.footer]

end Parts

section
variable {r : TypedMcapRecord}

theorem bytesOf_map_pieceOf (l : List TypedMcapRecord) : bytesOf (l.map pieceOf) = recordBytes l := by
  unfold bytesOf recordBytes
  rw [List.flatMap_map]
  rfl

theorem length_bytes_le {l : List TypedMcapRecord} (h : r ∈ l) :
    r.bytes.length ≤ (recordBytes l).length := by
  obtain ⟨front, back, rfl⟩ := List.append_of_mem h
  rw [recordBytes_append, recordBytes_cons]
  simp only [List.length_append]
  omega

/-- All the records of a file. -/
def Parts.all (p : Parts) : List TypedMcapRecord :=
  p.items.map Item.record ++ (p.trailer ++ [.footer p.footer])

theorem Parts.bytes_all (p : Parts) : p.bytes MAGIC = MAGIC ++ (recordBytes p.all ++ MAGIC) := by
  unfold Parts.bytes Parts.front Parts.summary Parts.back Parts.all Parts.trailer
  simp only [recordBytes_append, recordBytes_cons, recordBytes_nil, List.append_assoc, List.nil_append]
  rfl

theorem Parts.length_le {p : Parts} (h : r ∈ p.all) : r.bytes.length ≤ (p.bytes MAGIC).length := by
  have hle := length_bytes_le h
  rw [p.bytes_all]
  simp only [List.length_append]
  omega

theorem Parts.bytes_eq (p : Parts) : p.bytes MAGIC =
    MAGIC ++ (bytesOf (p.entries.map Entry.piece) ++ ((pieceOf (.footer p.footer)).bytes ++ MAGIC)) := by
  have hpieces : p.entries.map Entry.piece = (p.items.map Item.record ++ p.trailer).map pieceOf := by
    unfold Parts.entries
    simp only [List.map_append, List.map_map]
    rfl
  rw [hpieces, bytesOf_map_pieceOf, p.bytes_all]
  unfold Parts.all
  simp only [recordBytes_append, recordBytes_cons, recordBytes_nil, List.append_assoc, List.nil_append]
  rfl

theorem asRead_eq_self (h : ∀ s, r ≠ .statistics s) : r.asRead = r := by
  cases r <;> first | rfl | exact absurd rfl (h _)

theorem Content.asRead (h : r.Content) : r.asRead = r := by
  cases r <;> first | rfl | cases h

theorem framed_asRead (r : TypedMcapRecord) : r.asRead.opcode = r.opcode ∧ r.asRead.body = r.body := by
  cases r with
  | statistics s => exact ⟨rfl, body_wrapped s⟩
  | _ => exact ⟨rfl, rfl⟩

variable {decode : Bytes → String} {opts : McapReaderOptions}

theorem whole_pieceOf (hdecode : Decodes decode) (h : r.asRead.Fits)
    (hsize : r.bytes.length ≤ MAX_SAFE_INTEGER) : (pieceOf r).Whole decode opts := by
  have hwhole := whole_of_fits hdecode h opts.validateCrcs (by
    unfold TypedMcapRecord.bytes at hsize ⊢
    rw [(framed_asRead r).1, (framed_asRead r).2]
    exact hsize)
  rw [(framed_asRead r).1, (framed_asRead r).2] at hwhole
  exact hwhole

end

/-! ## Chunks -/

/-- **A compression and the handlers that undo it**, with names that can be written. -/
def Inverse (options : McapWriterOptions) (opts : McapReaderOptions) : Prop :=
  ∀ compress, options.compressChunk = some compress → ∀ data,
    StringFits (compress data).1 ∧
    if (compress data).1 ≠ "" ∧ 0 < (compress data).2.length then
      ∃ decompress, opts.decompressHandlers (compress data).1 = some decompress ∧
        decompress (compress data).2 data.length = .ok data
    else (compress data).2 = data

section
variable {options : McapWriterOptions} {opts : McapReaderOptions} {decode : Bytes → String}

theorem Inverse.fits (h : Inverse options opts) : CompressionFits options :=
  fun compress hcompress data => (h compress hcompress data).1

/-- **The data of a chunk that was packed.** -/
theorem chunkBuffer_packed (hinverse : Inverse options opts) {chunk : Chunk}
    {inner : List TypedMcapRecord} (h : Packed options chunk inner) (header : Option Header) :
    chunkBuffer opts header chunk = .ok (recordBytes inner) := by
  have hcrc : (if opts.validateCrcs = true ∧ chunk.uncompressedCrc ≠ 0 ∧
      (crc32 (recordBytes inner)).toNat ≠ chunk.uncompressedCrc then
        throw (.incorrectChunkCrc (crc32 (recordBytes inner)).toNat chunk.uncompressedCrc header)
      else pure (recordBytes inner) : Except TsError Bytes) = .ok (recordBytes inner) :=
    if_neg fun hne => hne.2.2 h.crc.symm
  have hdata := h.data
  unfold chunkBuffer
  dsimp only
  cases hcompress : options.compressChunk with
  | none =>
    rw [hcompress] at hdata
    obtain ⟨hname, hrecords⟩ := Prod.mk.injEq .. ▸ hdata
    rw [if_neg fun hne => hne.1 hname, hrecords]
    exact hcrc
  | some compress =>
    rw [hcompress] at hdata
    have hpair : compress (recordBytes inner) = (chunk.compression, chunk.records) := hdata.symm
    obtain ⟨-, hundo⟩ := hinverse compress hcompress (recordBytes inner)
    rw [hpair] at hundo
    dsimp only at hundo
    split at hundo
    · rename_i hne
      obtain ⟨decompress, hhandler, hok⟩ := hundo
      rw [if_pos hne, hhandler, h.size]
      show Except.bind (decompress chunk.records (recordBytes inner).length) _ = _
      rw [hok]
      exact hcrc
    · rename_i hne
      rw [if_neg hne, hundo]
      exact hcrc

/-- **An item of the journal is an entry that is valid.** -/
theorem entry_valid (hdecode : Decodes decode) (hinverse : Inverse options opts) {i : Item}
    (hlisted : i.Listed options) (hstands : i.Stands)
    (hsize : i.record.bytes.length ≤ MAX_SAFE_INTEGER) : i.entry.Valid decode opts := by
  obtain ⟨record, inner⟩ := i
  obtain ⟨hfits, hinner, hroom⟩ := hstands
  have hself : record.asRead = record := by
    refine asRead_eq_self fun s heq => ?_
    subst heq
    exact hlisted.1
  refine ⟨whole_pieceOf hdecode (by rw [hself]; exact hfits) hsize, fun footer heq => ?_,
    fun chunk heq => ?_⟩
  · have heq' : record = .footer footer := hself.symm.trans heq
    subst heq'
    exact hlisted.1
  · have heq' : record = .chunk chunk := hself.symm.trans heq
    subst heq'
    have hpacked : Packed options chunk inner := hlisted
    refine ⟨fun header => ?_, fun p hp => ?_, fun p hp => ?_, ?_⟩
    · rw [show (Item.mk (.chunk chunk) inner).entry.inner = inner.map pieceOf from rfl,
        bytesOf_map_pieceOf]
      exact chunkBuffer_packed hinverse hpacked header
    · obtain ⟨r, hr, rfl⟩ := List.mem_map.mp hp
      refine whole_pieceOf hdecode ?_ ((length_bytes_le hr).trans hroom)
      rw [Content.asRead (hpacked.content r hr)]
      exact hinner r hr
    · obtain ⟨r, hr, rfl⟩ := List.mem_map.mp hp
      have hcontent := hpacked.content r hr
      show r.asRead.inChunk = true
      rw [Content.asRead hcontent]
      cases r <;> first | rfl | cases hcontent
    · rw [show (Item.mk (.chunk chunk) inner).entry.inner = inner.map pieceOf from rfl,
        bytesOf_map_pieceOf]
      exact hroom

variable (opts) in
/-- **What is shown of an item** are its contents, but for chunks and their indexes. -/
theorem shown_entry {i : Item} (hlisted : i.Listed options) :
    (i.entry.shown opts).filter sent = i.contents.filter sent ∧
      (i.entry.piece.record.header?).toList = i.contents.filterMap TypedMcapRecord.header? ∧
      ∀ s, .statistics s ∉ i.entry.shown opts := by
  have hone : ∀ {r : TypedMcapRecord}, r.Plain ∨ r.messageIndex? ≠ none →
      ∀ s, TypedMcapRecord.statistics s ∉ [r] := by
    intro r hr s hmem
    rw [← List.mem_singleton.mp hmem] at hr
    rcases hr with hr | hr
    · exact hr
    · exact hr rfl
  obtain ⟨record, inner⟩ := i
  cases record with
  | chunk chunk =>
    have hpacked : Packed options chunk inner := hlisted
    have hmap : (inner.map pieceOf).map Piece.record = inner := by
      rw [List.map_map]
      conv_rhs => rw [← List.map_id inner]
      exact List.map_congr_left fun r hr => Content.asRead (hpacked.content r hr)
    have hheaders : inner.filterMap TypedMcapRecord.header? = [] := by
      refine List.filterMap_eq_nil_iff.mpr fun r hr => ?_
      have hcontent := hpacked.content r hr
      cases r <;> first | rfl | cases hcontent
    have hshown : (Item.mk (.chunk chunk) inner).entry.shown opts =
        (if opts.includeChunks = true then [TypedMcapRecord.chunk chunk] else []) ++ inner :=
      congrArg (_ ++ ·) hmap
    refine ⟨?_, hheaders.symm, fun s hs => ?_⟩
    · rw [hshown, List.filter_append]
      split <;> rfl
    · rw [hshown] at hs
      rcases List.mem_append.mp hs with hs | hs
      · split at hs
        · cases List.mem_singleton.mp hs
        · cases hs
      · exact hpacked.content _ hs
  | messageIndex index => exact ⟨rfl, rfl, hone (.inr (Option.some_ne_none _))⟩
  | header h | schema s | channel c | message m | attachment a | metadata m =>
    exact ⟨rfl, rfl, hone (.inl trivial)⟩
  | _ => exact absurd hlisted.1 id

end

/-! ## The end of a file -/

/-- **A writer that can be ended**: what is repeated in the summary was needed by a message, and the
counts and the file have lengths that can be read. -/
structure Finishable (options : McapWriterOptions) (w : McapWriter) : Prop where
  schemas : options.repeatSchemas = true → ∀ id ∈ w.schemas.keys, id ∈ w.writtenSchemaIds
  channels : options.repeatChannels = true → ∀ id ∈ w.channels.keys, id ∈ w.writtenChannelIds
  counts : ∀ s, (dataWritten options w).statistics = some s → s.messageCount < 2 ^ 64 ∧
    s.attachmentCount < 2 ^ 32 ∧ s.metadataCount < 2 ^ 32 ∧ s.chunkCount < 2 ^ 32
  size : (w.end' options).writable.length ≤ MAX_SAFE_INTEGER

theorem numberMapFits {m : Dict Nat Nat} (h : ∀ e ∈ m.items, e.1 < 2 ^ 16 ∧ e.2 < 2 ^ 64) :
    NumberMapFits m where
  entries := h
  size := by
    have hsubset : m.keys ⊆ List.range (2 ^ 16) := by
      intro k hk
      obtain ⟨e, he, rfl⟩ := List.mem_map.mp hk
      exact List.mem_range.mpr (h e he).1
    have hlength := (List.subperm_of_subset m.nodup hsubset).length_le
    rw [List.length_range, List.length_map] at hlength
    omega

theorem messagesIn_ne_zero {id : Nat} {l : List TypedMcapRecord} (h : messagesIn id l ≠ 0) :
    ∃ m, .message m ∈ l ∧ m.channelId = id := by
  obtain ⟨m, hm, hid⟩ := List.countP_pos_iff.mp (Nat.pos_of_ne_zero h)
  obtain ⟨r, hr, hmessage⟩ := List.mem_filterMap.mp hm
  have hrecord : r = .message m := by
    cases r <;> cases hmessage
    rfl
  exact ⟨m, hrecord ▸ hr, of_decide_eq_true hid⟩

/-- **Statistics fit**, as they are written. -/
theorem Statistics.Counts.fits {s : Statistics} {records : List TypedMcapRecord} {items : List Item}
    (h : s.Counts records items) (hfits : ∀ r ∈ records, r.Fits)
    (hcounts : s.messageCount < 2 ^ 64 ∧ s.attachmentCount < 2 ^ 32 ∧ s.metadataCount < 2 ^ 32 ∧
      s.chunkCount < 2 ^ 32) : (TypedMcapRecord.statistics s.wrapped).Fits := by
  have htimes := lt_of_fits hfits
  refine ⟨hcounts.1, Nat.mod_lt _ (by decide), Nat.mod_lt _ (by decide), hcounts.2.1, hcounts.2.2.1,
    hcounts.2.2.2, ?_, ?_, numberMapFits fun e he => ?_⟩
  · show s.messageStartTime < 2 ^ 64
    rw [h.messageStartTime]
    exact min?_lt htimes
  · show s.messageEndTime < 2 ^ 64
    rw [h.messageEndTime]
    exact max?_lt htimes
  · have hget : s.channelMessageCounts.get? e.1 = some e.2 := Dict.get?_eq_some.mpr he
    have hcount := h.channelMessageCounts e.1
    rw [hget, Option.getD_some] at hcount
    constructor
    · obtain ⟨m, hm, hid⟩ := messagesIn_ne_zero (hcount ▸ h.positive e.1 e.2 hget)
      exact hid ▸ (hfits _ hm).1
    · have hle : messagesIn e.1 records ≤ (messagesOf records).length := List.countP_le_length
      rw [hcount]
      exact lt_of_le_of_lt (h.messageCount ▸ hle) hcounts.1

section
variable {options : McapWriterOptions} {w : McapWriter} {items : List Item}
  {told : List TypedMcapRecord} {n : Nat}

theorem placed_le {pos : Nat} {l : List Item} {p : Place} (h : p ∈ placed pos l) :
    p.offset + p.length ≤ pos + (Item.allBytes l).length := by
  obtain ⟨front, back, rfl, hoffset, hlength⟩ := mem_placed.mp h
  rw [hoffset, hlength, Item.allBytes_append, Item.allBytes_cons]
  simp only [List.length_append]
  unfold Item.size
  omega

/-- **The index of a chunk fits.** -/
theorem chunkIndex_fits {g : Group} {pos : Nat} (hg : g ∈ groupsOf (placed pos items))
    (hsound : g.Sound options) (hstands : ∀ i ∈ items, i.Stands)
    (hn : pos + (Item.allBytes items).length ≤ MAX_SAFE_INTEGER) :
    (TypedMcapRecord.chunkIndex g.chunkIndex).Fits := by
  have hmax : MAX_SAFE_INTEGER < 2 ^ 64 := by decide
  obtain ⟨front, back, hitems, hoffset, hlength, hindexes⟩ := mem_groupsOf hg
  have hchunk : (TypedMcapRecord.chunk g.chunk).Fits :=
    (hstands ⟨.chunk g.chunk, g.inner⟩ (hitems ▸ List.mem_append_right _ List.mem_cons_self)).1
  obtain ⟨rest, hrest, hsum, hplaces⟩ := indexPlaces_spec (g.offset + g.length) back
  rw [← hindexes] at hrest hsum hplaces
  have htotal : pos + (Item.allBytes items).length =
      g.offset + g.length + (Item.allBytes back).length := by
    rw [hitems, Item.allBytes_append, Item.allBytes_cons, hoffset, hlength]
    simp only [List.length_append]
    omega
  have hrecords : g.chunk.records.length ≤ g.length := by
    rw [hlength]
    unfold TypedMcapRecord.bytes TypedMcapRecord.body
    rw [length_frame]
    simp only [List.length_append]
    omega
  have hbehind : (g.indexes.map IndexPlace.length).sum ≤ (Item.allBytes back).length := by
    rw [hsum]
    unfold Item.allBytes
    rw [hrest, recordBytes_append, List.length_append]
    exact Nat.le_add_right _ _
  refine ⟨hchunk.1, hchunk.2.1, ?_, ?_, numberMapFits fun e he => ?_, ?_, hchunk.2.2.2.2, ?_,
    hchunk.2.2.1⟩
  · show g.offset < 2 ^ 64
    omega
  · show g.length < 2 ^ 64
    omega
  · have hnodup : ((g.indexes.map fun i => (i.index.channelId, i.offset)).map Prod.fst).Nodup := by
      rw [List.map_map]
      exact hsound.nodup
    change e ∈ ((∅ : Dict Nat Nat).setAll _).items at he
    rw [Dict.items_setAll hnodup fun e _ => List.not_mem_nil] at he
    obtain ⟨x, hx, rfl⟩ := List.mem_map.mp he
    obtain ⟨item, hrecord, hplace⟩ := hplaces x hx
    have hitem : item ∈ items := by
      obtain ⟨front', back', hback, -, -⟩ := mem_placed.mp hplace
      rw [hitems, hback]
      exact List.mem_append_right _ (List.mem_cons_of_mem _ (List.mem_append_right _ List.mem_cons_self))
    have hfits := (hstands item hitem).1
    rw [hrecord] at hfits
    have hle : x.offset + x.length ≤ _ := placed_le hplace
    exact ⟨hfits.1, show x.offset < 2 ^ 64 by omega⟩
  · show (g.indexes.map IndexPlace.length).sum < 2 ^ 64
    omega
  · show g.chunk.records.length < 2 ^ 64
    omega

/-- **A record behind the data section**: a schema or a channel is one that has been told of, and
statistics are those of the records. -/
def TypedMcapRecord.Behind (told records : List TypedMcapRecord) (items : List Item) :
    TypedMcapRecord → Prop
  | .schema s => .schema s ∈ told
  | .channel c => .channel c ∈ told
  | .statistics s => s.Counts records items
  | .chunkIndex _ | .attachmentIndex _ | .metadataIndex _ | .summaryOffset _ | .dataEnd _ => True
  | _ => False

/-- **The records of a summary fit.** -/
theorem summary_fits (hlaid : Laid options (.new options) w items [] [] none)
    (ht : Told options (.new options) w items [] [] told) (hagrees : Agrees w told)
    (hschemas : options.repeatSchemas = true → ∀ id ∈ w.schemas.keys, id ∈ w.writtenSchemaIds)
    (hchannels : options.repeatChannels = true → ∀ id ∈ w.channels.keys, id ∈ w.writtenChannelIds)
    (hcounts : ∀ s, w.statistics = some s → s.messageCount < 2 ^ 64 ∧
      s.attachmentCount < 2 ^ 32 ∧ s.metadataCount < 2 ^ 32 ∧ s.chunkCount < 2 ^ 32)
    (hn : MAGIC.length + (Item.allBytes items).length ≤ MAX_SAFE_INTEGER) :
    ∀ r ∈ recordsOf (sectionsOf options w), r.asRead.Fits ∧ r.Behind told (contentsOf items) items := by
  have hmax : MAX_SAFE_INTEGER < 2 ^ 64 := by decide
  have hjournal : journal items [] [] = contentsOf items := by
    unfold journal
    rw [contentsOf_nil, List.append_nil, List.append_nil]
  have hfits : ∀ r ∈ told, r.Fits := by
    intro r hr
    rw [← ht.contents] at hr
    exact ht.fits r (List.mem_filter.mp hr).1
  have hwithin : (Base.new options).front.length + (Item.allBytes items).length ≤ MAX_SAFE_INTEGER := hn
  rw [← List.length_append] at hwithin
  intro r hr
  rcases mem_recordsOf hr with ⟨hrepeat, x, hx, rfl⟩ | ⟨hrepeat, x, hx, rfl⟩ | ⟨x, hx, rfl⟩ |
    ⟨l, hl, x, hx, rfl⟩ | ⟨l, hl, x, hx, rfl⟩ | ⟨l, hl, x, hx, rfl⟩
  · have htold : .schema x ∈ told := by
      obtain ⟨⟨id, x'⟩, hitem, rfl⟩ := List.mem_map.mp hx
      obtain ⟨s, hs, hmem⟩ := hagrees.writtenSchema id
        (hschemas hrepeat id (List.mem_map_of_mem (f := Prod.fst) hitem))
      rw [Dict.get?_eq_some.mpr hitem] at hs
      exact Option.some.inj hs ▸ hmem
    exact ⟨hfits _ htold, htold⟩
  · have htold : .channel x ∈ told := by
      obtain ⟨⟨id, x'⟩, hitem, rfl⟩ := List.mem_map.mp hx
      obtain ⟨c, hc, hmem, -⟩ := hagrees.writtenChannel id
        (hchannels hrepeat id (List.mem_map_of_mem (f := Prod.fst) hitem))
      rw [Dict.get?_eq_some.mpr hitem] at hc
      exact Option.some.inj hc ▸ hmem
    exact ⟨hfits _ htold, htold⟩
  · have hcounts' := ht.counts x hx
    rw [hjournal] at hcounts'
    exact ⟨hcounts'.fits (fun r hr => ht.fits r (hjournal.symm ▸ hr)) (hcounts x hx), hcounts'⟩
  · have hx' := ht.metadataIndices l hl x hx
    exact ⟨⟨lt_of_le_of_lt (hx'.offset.trans hwithin) hmax, lt_of_le_of_lt (hx'.length.trans hwithin) hmax,
      hx'.name⟩, trivial⟩
  · have hx' := ht.attachmentIndices l hl x hx
    exact ⟨⟨lt_of_le_of_lt (hx'.offset.trans hwithin) hmax, lt_of_le_of_lt (hx'.length.trans hwithin) hmax,
      hx'.logTime, hx'.createTime, lt_of_le_of_lt (hx'.dataSize.trans hwithin) hmax, hx'.name,
      hx'.mediaType⟩, trivial⟩
  · have hchunks := hlaid.chunked.chunkIndices
    rw [hl] at hchunks
    obtain ⟨l', hbase, heq⟩ := Option.map_eq_some_iff.mp hchunks.symm
    have hnil : l' = [] := by
      change (if options.useChunkIndex = true then some [] else none) = some l' at hbase
      split at hbase
      · exact (Option.some.inj hbase).symm
      · cases hbase
    rw [hnil, List.nil_append] at heq
    rw [← heq] at hx
    obtain ⟨g, hg, rfl⟩ := List.mem_map.mp hx
    exact ⟨chunkIndex_fits hg (hlaid.chunked.sound g hg) ht.items hn, trivial⟩

end

/-! ## Valid files -/

section
variable {options : McapWriterOptions} {opts : McapReaderOptions} {decode : Bytes → String}
  {p : Parts} {told : List TypedMcapRecord}

/-- **The records behind the data section fit**, and the footer does. -/
theorem trailer_fits (hended : p.Ended options MAGIC)
    (hsummary : ∀ r ∈ recordsOf p.groups,
      r.asRead.Fits ∧ r.Behind told (contentsOf p.items) p.items)
    (hcrc : p.dataEnd.dataSectionCrc < 2 ^ 32) (hn : (p.bytes MAGIC).length ≤ MAX_SAFE_INTEGER) :
    (∀ r ∈ p.trailer, r.asRead.Fits ∧ r.Behind told (contentsOf p.items) p.items) ∧
      (TypedMcapRecord.footer p.footer).Fits := by
  have hmax : MAX_SAFE_INTEGER < 2 ^ 64 := by decide
  have hlength : (p.front MAGIC).length + p.summary.length ≤ MAX_SAFE_INTEGER := by
    unfold Parts.bytes at hn
    simp only [List.length_append] at hn
    omega
  constructor
  · intro r hr
    rcases List.mem_cons.mp hr with rfl | hr
    · exact ⟨hcrc, trivial⟩
    · rcases List.mem_append.mp hr with hr | hr
      · exact hsummary r hr
      · obtain ⟨o, ho, rfl⟩ := List.mem_map.mp hr
        refine ⟨?_, trivial⟩
        rw [hended.offsets] at ho
        split at ho
        · obtain ⟨front, s, back, hgroups, rfl⟩ := mem_offsetsOf (List.mem_filter.mp ho).1
          have hparts : p.summary.length = (recordBytes (recordsOf front)).length +
              ((recordBytes s.records).length + (recordBytes (recordsOf back)).length) := by
            unfold Parts.summary
            rw [hgroups, recordsOf_append, recordsOf_cons, recordBytes_append, recordBytes_append,
              List.length_append, List.length_append]
          refine ⟨s.opcode.toNat_lt, ?_, ?_⟩
          · show (p.front MAGIC).length + (recordBytes (recordsOf front)).length < 2 ^ 64
            omega
          · show (recordBytes s.records).length < 2 ^ 64
            omega
        · cases ho
  · refine ⟨?_, ?_, ?_⟩
    · rw [hended.summaryStart]
      split <;> omega
    · rw [hended.summaryOffsetStart]
      split <;> omega
    · rw [hended.summaryCrc]
      exact (crc32 _).toNat_lt

variable (opts) in
theorem shown_trailer {r : TypedMcapRecord} (h : r.Behind told (contentsOf p.items) p.items) :
    (Item.plain r).entry.shown opts = [r.asRead] ∧
      (Item.plain r).entry.piece.record.header? = none := by
  cases r <;> first | exact ⟨rfl, rfl⟩ | exact absurd h id

/-- **A file that has been ended is valid.** -/
def validFile (hdecode : Decodes decode) (hinverse : Inverse options opts)
    (hmagic : opts.noMagicPrefix = false) (hlisted : ∀ i ∈ p.items, i.Listed options)
    (hstands : ∀ i ∈ p.items, i.Stands)
    (hheader : ((contentsOf p.items).filterMap TypedMcapRecord.header?).length = 1)
    (htrailer : ∀ r ∈ p.trailer, r.asRead.Fits ∧ r.Behind told (contentsOf p.items) p.items)
    (hfooter : (TypedMcapRecord.footer p.footer).Fits)
    (hconsistent : Consistent (p.records opts))
    (hn : (p.bytes MAGIC).length ≤ MAX_SAFE_INTEGER) : ValidFile decode opts (p.bytes MAGIC) where
  entries := p.entries
  last := pieceOf (.footer p.footer)
  footer := p.footer
  file_eq := by
    rw [hmagic, if_neg Bool.false_ne_true]
    exact p.bytes_eq
  valid e he := by
    rcases List.mem_append.mp he with he | he
    · obtain ⟨i, hi, rfl⟩ := List.mem_map.mp he
      exact entry_valid hdecode hinverse (hlisted i hi) (hstands i hi)
        ((Parts.length_le (List.mem_append_left _ (List.mem_map_of_mem hi))).trans hn)
    · obtain ⟨r, hr, rfl⟩ := List.mem_map.mp he
      obtain ⟨hfits, hbehind⟩ := htrailer r hr
      refine ⟨whole_pieceOf hdecode hfits ((Parts.length_le
        (List.mem_append_right _ (List.mem_append_left _ hr))).trans hn), fun footer heq => ?_,
        fun chunk heq => ?_⟩
      · cases r <;> first | exact hbehind | cases heq
      · cases r <;> first | exact absurd hbehind id | cases heq
  header := by
    have hitems : ∀ items : List Item, (∀ i ∈ items, i.Listed options) →
        ((items.map Item.entry).map fun e => e.piece.record).filterMap TypedMcapRecord.header? =
          (contentsOf items).filterMap TypedMcapRecord.header? := by
      intro items hlisted
      induction items with
      | nil => rfl
      | cons i items ih =>
        have hone := (shown_entry opts (hlisted i List.mem_cons_self)).2.1
        have hcons : contentsOf (i :: items) = i.contents ++ contentsOf items := rfl
        rw [hcons, List.filterMap_append, ← hone,
          ← ih fun i hi => hlisted i (List.mem_cons_of_mem _ hi), List.map_cons, List.map_cons]
        cases hkind : i.entry.piece.record.header? with
        | none => rw [List.filterMap_cons_none hkind]; rfl
        | some header => rw [List.filterMap_cons_some hkind]; rfl
    have hbehind : ((p.trailer.map fun r => (Item.plain r).entry).map fun e => e.piece.record).filterMap
        TypedMcapRecord.header? = [] := by
      refine List.filterMap_eq_nil_iff.mpr fun r hr => ?_
      obtain ⟨e, he, rfl⟩ := List.mem_map.mp hr
      obtain ⟨r, hmem, rfl⟩ := List.mem_map.mp he
      exact (shown_trailer opts (htrailer r hmem).2).2
    show ((p.entries.map fun e => e.piece.record).filterMap TypedMcapRecord.header?).length ≤ 1
    unfold Parts.entries
    rw [List.map_append, List.filterMap_append, hitems p.items hlisted, hbehind, List.append_nil, hheader]
  last_whole := whole_pieceOf hdecode hfooter ((Parts.length_le
    (List.mem_append_right _ (List.mem_append_right _ (List.mem_singleton_self _)))).trans hn)
  last_eq := rfl
  consistent := hconsistent
  size := hn

/-! ## What is read -/

variable (opts) in
/-- **What there is to read** of the data section and behind it. -/
theorem records_spec (hlisted : ∀ i ∈ p.items, i.Listed options)
    (htold : (contentsOf p.items).filter sent = told)
    (htrailer : ∀ r ∈ p.trailer, r.asRead.Fits ∧ r.Behind told (contentsOf p.items) p.items) :
    ∃ data, p.records opts = data ++ (p.trailer.map TypedMcapRecord.asRead ++ [.footer p.footer]) ∧
      data.filter sent = told ∧ ∀ s, .statistics s ∉ data := by
  have hshown : p.trailer.flatMap (fun r => (Item.plain r).entry.shown opts) =
      p.trailer.map TypedMcapRecord.asRead := by
    generalize p.trailer = l at htrailer
    induction l with
    | nil => rfl
    | cons r l ih =>
      rw [List.flatMap_cons, (shown_trailer opts (htrailer r List.mem_cons_self).2).1,
        ih fun r hr => htrailer r (List.mem_cons_of_mem _ hr)]
      rfl
  refine ⟨(p.items.map Item.entry).flatMap (Entry.shown opts), ?_, ?_, fun s hs => ?_⟩
  · unfold Parts.records Parts.entries
    rw [List.flatMap_append, List.append_assoc, ← hshown]
    congr 2
    exact List.flatMap_map ..
  · rw [← htold]
    generalize p.items = items at hlisted
    induction items with
    | nil => rfl
    | cons i items ih =>
      have hcons : contentsOf (i :: items) = i.contents ++ contentsOf items := rfl
      rw [List.map_cons, List.flatMap_cons, List.filter_append, hcons, List.filter_append,
        (shown_entry opts (hlisted i List.mem_cons_self)).1,
        ih fun i hi => hlisted i (List.mem_cons_of_mem _ hi)]
  · obtain ⟨e, he, hs⟩ := List.mem_flatMap.mp hs
    obtain ⟨i, hi, rfl⟩ := List.mem_map.mp he
    exact (shown_entry opts (hlisted i hi)).2.2 s hs

theorem message?_trailer
    (htrailer : ∀ r ∈ p.trailer, r.asRead.Fits ∧ r.Behind told (contentsOf p.items) p.items) :
    ∀ r ∈ p.trailer.map TypedMcapRecord.asRead ++ [.footer p.footer], r.message? = none := by
  intro r hr
  rcases List.mem_append.mp hr with hr | hr
  · obtain ⟨r', hr', rfl⟩ := List.mem_map.mp hr
    have hbehind := (htrailer r' hr').2
    cases r' with
    | message m => exact absurd hbehind id
    | _ => rfl
  · rw [List.mem_singleton.mp hr]
    rfl

theorem mem_records {data : List TypedMcapRecord}
    (hrecords : p.records opts = data ++ (p.trailer.map TypedMcapRecord.asRead ++ [.footer p.footer]))
    (hdata : data.filter sent = told)
    (htrailer : ∀ r ∈ p.trailer, r.asRead.Fits ∧ r.Behind told (contentsOf p.items) p.items) :
    ∀ r ∈ p.records opts, sent r = true → r ∈ told := by
  intro r hr hsent
  rw [hrecords] at hr
  rcases List.mem_append.mp hr with hr | hr
  · exact hdata ▸ List.mem_filter.mpr ⟨hr, hsent⟩
  · rcases List.mem_append.mp hr with hr | hr
    · obtain ⟨r', hr', rfl⟩ := List.mem_map.mp hr
      have hbehind := (htrailer r' hr').2
      cases r' with
      | schema s => exact hbehind
      | channel c => exact hbehind
      | message m => exact absurd hbehind id
      | _ => cases hsent
    · cases List.mem_singleton.mp hr
      cases hsent

/-- **A message is read behind its channel and its schema.** -/
theorem ordered_records {data : List TypedMcapRecord}
    (hrecords : p.records opts = data ++ (p.trailer.map TypedMcapRecord.asRead ++ [.footer p.footer]))
    (hdata : data.filter sent = told)
    (htrailer : ∀ r ∈ p.trailer, r.asRead.Fits ∧ r.Behind told (contentsOf p.items) p.items)
    {w : McapWriter} (hagrees : Agrees w told) {front back : List TypedMcapRecord} {m : Message}
    (heq : p.records opts = front ++ .message m :: back) :
    ∃ c, .channel c ∈ front ∧ c.id = m.channelId ∧
      (c.schemaId = 0 ∨ ∃ s, .schema s ∈ front ∧ s.id = c.schemaId) := by
  have hnone := message?_trailer htrailer
  rw [hrecords] at heq
  have hsplit : ∃ more, data = front ++ .message m :: more := by
    rcases List.append_eq_append_iff.mp heq with ⟨more, rfl, htail⟩ | ⟨more, rfl, htail⟩
    · have hmem : TypedMcapRecord.message m ∈
          p.trailer.map TypedMcapRecord.asRead ++ [.footer p.footer] :=
        htail ▸ List.mem_append_right _ List.mem_cons_self
      cases hnone _ hmem
    · cases more with
      | nil =>
        have hmem : TypedMcapRecord.message m ∈
            p.trailer.map TypedMcapRecord.asRead ++ [.footer p.footer] := by
          rw [List.nil_append] at htail
          exact htail ▸ List.mem_cons_self
        cases hnone _ hmem
      | cons r more =>
        obtain ⟨rfl, -⟩ := List.cons.inj htail
        exact ⟨more, rfl⟩
  obtain ⟨more, rfl⟩ := hsplit
  rw [List.filter_append, List.filter_cons_of_pos rfl] at hdata
  obtain ⟨c, hc, hid, hschema⟩ := hagrees.ordered _ m _ hdata.symm
  refine ⟨c, (List.mem_filter.mp hc).1, hid, hschema.imp_right ?_⟩
  rintro ⟨s, hs, hsid⟩
  exact ⟨s, (List.mem_filter.mp hs).1, hsid⟩

theorem isChannelEqual_self (c : Channel) : isChannelEqual c c = true := by
  unfold isChannelEqual
  rw [Bool.and_eq_true, decide_eq_true_eq, List.all_eq_true]
  exact ⟨⟨rfl, rfl, rfl, rfl, rfl⟩, fun e he => decide_eq_true (Dict.get?_eq_some.mpr he).symm⟩

/-- **A faithful file**: what is read of it are the messages that were accepted, with the channels and
schemas that were registered, and its checksums, statistics and summary are right. -/
structure Parts.Faithful (options : McapWriterOptions) (opts : McapReaderOptions) (calls : List Call)
    (messages : List Message) (p : Parts) : Prop where
  messages : messagesOf (p.records opts) = messages
  definitions : ∀ front m back, p.records opts = front ++ .message m :: back →
    ∃ channel ∈ channelsFrom options.startChannelId calls, channel.id = m.channelId ∧
      .channel channel ∈ front ∧
      (∀ c, .channel c ∈ p.records opts → c.id = m.channelId → c = channel) ∧
      (channel.schemaId ≠ 0 → ∃ schema ∈ schemasFrom 1 calls, schema.id = channel.schemaId ∧
        .schema schema ∈ front ∧
        ∀ s, .schema s ∈ p.records opts → s.id = channel.schemaId → s = schema)
  dataSectionCrc : p.dataEnd.dataSectionCrc = (crc32 (MAGIC ++ Item.allBytes p.items)).toNat
  summaryCrc : p.footer.summaryCrc = (crc32 (p.summary ++ (recordBytes (p.offsets.map .summaryOffset) ++
    McapWriter.Ending.tempBuffer p.footer))).toNat
  statistics : ∀ s, .statistics s ∈ p.records opts → s.Counts (contentsOf p.items) p.items
  repeatedSchemas : ∀ s, .schema s ∈ recordsOf p.groups → .schema s ∈ contentsOf p.items
  repeatedChannels : ∀ c, .channel c ∈ recordsOf p.groups → .channel c ∈ contentsOf p.items

/-- The messages that are accepted between `start` and `end`. -/
def acceptedIn (options : McapWriterOptions) (header : Header) (calls : List Call) : List Message :=
  match (McapWriter.new options).start header with
  | .ok w => accepted options w calls
  | .error _ => []

/-- **What a run has to be**: every call tells what can be told, and the writer can be ended. -/
structure SoundRun (options : McapWriterOptions) (header : Header) (calls : List Call) : Prop where
  fits : (TypedMcapRecord.header header).Fits
  sound : ∀ w, (McapWriter.new options).start header = .ok w → AllSound options w calls
  finishable : ∀ w, (McapWriter.new options).start header = .ok w →
    Finishable options (w.performAll options calls)

/-- **What is written is read**: the stream reader comes to the end of a file of the writer without an
error, and the file is faithful. -/
theorem fileOf_faithful (hdecode : Decodes decode) (hinverse : Inverse options opts)
    (hmagic : opts.noMagicPrefix = false) {header : Header} {calls : List Call}
    (h : SoundRun options header calls) :
    ∃ p : Parts, McapWriter.fileOf options header calls = .ok (p.bytes MAGIC) ∧
      (∀ k, (p.records opts).length ≤ k → ∃ s,
        run decode opts (.append (p.bytes MAGIC) :: List.replicate k .nextRecord) (new opts) =
          .ok (p.records opts, s) ∧ s.doneReading = true) ∧
      p.Faithful options opts calls (acceptedIn options header calls) := by
  obtain ⟨w, hstart, -, -, -, -⟩ := start_spec options header
  obtain ⟨hbalanced, hschemas, hchannels, hnextSchema, hnextChannel, hcrc⟩ :=
    balanced_start h.fits hstart
  obtain ⟨told, hdone, hmessages⟩ := hbalanced.performAll calls hinverse.fits (h.sound w hstart)
  rw [List.nil_append] at hdone
  obtain ⟨hschemas', hchannels'⟩ := registry_performAll options calls hbalanced.fresh
  rw [hschemas, List.nil_append, hnextSchema] at hschemas'
  rw [hchannels, List.nil_append, hnextChannel] at hchannels'
  have hfinishable := h.finishable w hstart
  generalize hw : w.performAll options calls = w₁ at hdone hschemas' hchannels' hfinishable
  have hcrc' : w₁.dataSectionCrc.isSome = true :=
    hw ▸ (performAll_keeps options calls w).2.trans hcrc
  obtain ⟨flushed, pending, inner, hlaid, ht⟩ := hdone.journaled
  obtain ⟨items, hlaid', ht'⟩ := told_dataWritten hlaid ht hinverse.fits
  obtain ⟨p, hwritable, hended, hitems, hgroups, hdataCrc⟩ := end_spec hlaid'.tape hcrc'
  have hfile : McapWriter.fileOf options header calls = .ok (p.bytes MAGIC) := by
    unfold McapWriter.fileOf
    rw [hstart]
    show Except.ok ((w.performAll options calls).end' options).writable = _
    rw [hw]
    exact congrArg Except.ok hwritable
  have hsize : (p.bytes MAGIC).length ≤ MAX_SAFE_INTEGER := by
    have hle := hfinishable.size
    rw [hwritable] at hle
    exact hle
  subst hitems
  have hsame : SameRegistry w₁ (dataWritten options w₁) :=
    (sameRegistry_finalizeChunk options w₁).trans ⟨rfl, rfl, rfl, rfl⟩
  have hagrees : Agrees (dataWritten options w₁) told := hdone.agrees.congr hsame
  have htold : (contentsOf p.items).filter sent = told := by
    have hcontents := ht'.contents
    unfold journal at hcontents
    rwa [contentsOf_nil, List.append_nil, List.append_nil] at hcontents
  have hheader : ((contentsOf p.items).filterMap TypedMcapRecord.header?).length = 1 := by
    have hone := ht'.header
    unfold journal at hone
    rwa [contentsOf_nil, List.append_nil, List.append_nil] at hone
  have hdata : MAGIC.length + (Item.allBytes p.items).length ≤ MAX_SAFE_INTEGER := by
    unfold Parts.bytes Parts.front at hsize
    simp only [List.length_append] at hsize
    omega
  have hsummary := summary_fits hlaid' ht' hagrees
    (by rw [hsame.schemas, hsame.writtenSchemaIds]; exact hfinishable.schemas)
    (by rw [hsame.channels, hsame.writtenChannelIds]; exact hfinishable.channels)
    hfinishable.counts hdata
  rw [← hgroups] at hsummary
  obtain ⟨htrailer, hfooter⟩ := trailer_fits hended hsummary
    (by rw [hdataCrc]; exact (crc32 _).toNat_lt) hsize
  obtain ⟨data, hrecords, hsent, hnone⟩ := records_spec opts hlaid'.chunked.listed htold htrailer
  have hmem := mem_records hrecords hsent htrailer
  have hordered : ∀ front m back, p.records opts = front ++ .message m :: back →
      ∃ c, .channel c ∈ front ∧ c.id = m.channelId ∧
        (c.schemaId = 0 ∨ ∃ s, .schema s ∈ front ∧ s.id = c.schemaId) :=
    fun front m back heq => ordered_records hrecords hsent htrailer hagrees heq
  -- channels and schemas of one id are the same
  have hchannel : ∀ c c', .channel c ∈ p.records opts → .channel c' ∈ p.records opts → c.id = c'.id →
      c = c' := by
    intro c c' hc hc' hid
    have hget := hagrees.channel c (hmem _ hc rfl)
    rw [hid, hagrees.channel c' (hmem _ hc' rfl)] at hget
    exact (Option.some.inj hget).symm
  have hschema : ∀ s s', .schema s ∈ p.records opts → .schema s' ∈ p.records opts → s.id = s'.id →
      s = s' := by
    intro s s' hs hs' hid
    have hget := hagrees.schema s (hmem _ hs rfl)
    rw [hid, hagrees.schema s' (hmem _ hs' rfl)] at hget
    exact (Option.some.inj hget).symm
  have hconsistent : Consistent (p.records opts) := by
    constructor
    · intro front channel back heq existing hexisting hid
      rw [hchannel existing channel (heq ▸ List.mem_append_left _ hexisting)
        (heq ▸ List.mem_append_right _ List.mem_cons_self) hid]
      exact isChannelEqual_self channel
    · intro front message back heq
      obtain ⟨c, hc, hid, -⟩ := hordered front message back heq
      exact ⟨c, hc, hid⟩
  let f := validFile hdecode hinverse hmagic hlaid'.chunked.listed ht'.items hheader htrailer hfooter
    hconsistent hsize
  refine ⟨p, hfile, fun k hk => ?_, ?_⟩
  · have happended : appendedOf [.append (p.bytes MAGIC)] = p.bytes MAGIC := List.append_nil _
    rcases fragments_read f [.append (p.bytes MAGIC)] ⟨[], by rw [happended, List.append_nil]⟩ with
      ⟨-, before, after, s, hops, -⟩ | ⟨-, -, -, -, -, -, hall⟩
    · cases before with
      | nil =>
        have hempty : p.bytes MAGIC = [] := Op.append.inj (List.cons.inj hops).1
        rw [p.bytes_all] at hempty
        cases hempty
      | cons op before => cases before <;> cases hops
    · exact hall happended k hk
  · constructor
    · unfold acceptedIn
      rw [hstart, hrecords, messagesOf_append]
      show _ = accepted options w calls
      rw [← hmessages, ← hsent, messagesOf_filter]
      exact List.append_right_eq_self.mpr
        (List.filterMap_eq_nil_iff.mpr (message?_trailer htrailer))
    · intro front m back heq
      obtain ⟨c, hc, hid, hneeds⟩ := hordered front m back heq
      have hc' : .channel c ∈ p.records opts := heq ▸ List.mem_append_left _ hc
      have hget := hagrees.channel c (hmem _ hc' rfl)
      rw [hsame.channels] at hget
      have hmem' : c ∈ w₁.channels.values :=
        List.mem_map_of_mem (f := Prod.snd) (Dict.get?_eq_some.mp hget)
      refine ⟨c, hchannels' ▸ hmem', hid, hc, fun c' hc'' hid' => ?_, fun hne => ?_⟩
      · exact hchannel c' c hc'' hc' (hid'.trans hid.symm)
      · obtain ⟨s, hs, hsid⟩ := hneeds.resolve_left hne
        have hs' : .schema s ∈ p.records opts := heq ▸ List.mem_append_left _ hs
        have hget := hagrees.schema s (hmem _ hs' rfl)
        rw [hsame.schemas] at hget
        have hmem' : s ∈ w₁.schemas.values :=
          List.mem_map_of_mem (f := Prod.snd) (Dict.get?_eq_some.mp hget)
        exact ⟨s, hschemas' ▸ hmem', hsid, hs, fun s' hs'' hid' =>
          hschema s' s hs'' hs' (hid'.trans hsid.symm)⟩
    · exact hdataCrc
    · exact hended.summaryCrc
    · intro s hs
      rw [hrecords] at hs
      rcases List.mem_append.mp hs with hs | hs
      · exact absurd hs (hnone s)
      · rcases List.mem_append.mp hs with hs | hs
        · obtain ⟨r, hr, heq⟩ := List.mem_map.mp hs
          have hbehind := (htrailer r hr).2
          cases r with
          | statistics s' =>
            cases heq
            exact { (hbehind : s'.Counts _ _) with }
          | _ => cases heq
        · cases List.mem_singleton.mp hs
    · intro s hs
      have htold' : .schema s ∈ told := (hsummary _ hs).2
      rw [← htold] at htold'
      exact (List.mem_filter.mp htold').1
    · intro c hc
      have htold' : .channel c ∈ told := (hsummary _ hc).2
      rw [← htold] at htold'
      exact (List.mem_filter.mp htold').1

end

/-! ## A message that is accepted, and one that is refused -/

/-- A schema, a channel of it and a message. -/
def acceptedCalls : List Call :=
  [.registerSchema ⟨"", "", []⟩, .registerChannel ⟨1, "", "", ∅⟩, .addMessage ⟨0, 1, 5, 6, [9]⟩]

theorem acceptedCalls_sound : SoundRun {} ⟨"", ""⟩ acceptedCalls where
  fits := ⟨stringFits_empty, stringFits_empty⟩
  sound w hstart := by
    cases hstart
    intro before call after heq
    rcases before with _ | ⟨call₁, _ | ⟨call₂, _ | ⟨call₃, before⟩⟩⟩
    · cases heq
      trivial
    · cases heq
      trivial
    · cases heq
      refine ⟨fun _ => ⟨⟨0, 1, "", "", ∅⟩, rfl, .inr rfl⟩, fun _ => ⟨fun r hr => ?_, fun c hc => ?_⟩⟩
      · change r ∈ [.schema ⟨1, "", "", []⟩, .channel ⟨0, 1, "", "", ∅⟩, .message ⟨0, 1, 5, 6, [9]⟩] at hr
        simp only [List.mem_cons, List.not_mem_nil, or_false] at hr
        rcases hr with rfl | rfl | rfl
        · exact ⟨by decide, stringFits_empty, stringFits_empty, by decide⟩
        · exact ⟨by decide, by decide, stringFits_empty, stringFits_empty,
            fun e he => absurd he List.not_mem_nil, by decide⟩
        · exact ⟨by decide, by decide, by decide, by decide⟩
      · cases hc
        decide
    · have hlength := congrArg List.length heq
      simp only [List.length_append, List.length_cons] at hlength
      change 3 = _ at hlength
      omega
  finishable w hstart := by
    cases hstart
    exact ⟨fun _ => by decide, fun _ => by decide, fun s hs => by cases hs; decide, by decide +kernel⟩

/-- Strings of UTF-8, without a mark. -/
def decodeUtf8 (bytes : Bytes) : String := (String.fromUTF8? ⟨bytes.toArray⟩).getD ""

theorem decodes_decodeUtf8 : Decodes decodeUtf8 := by
  intro s _
  unfold decodeUtf8
  rw [fromUTF8?_utf8]
  rfl

/-- **Records are read back**, wherever they stand. -/
theorem outcome_bytes {decode : Bytes → String} (hdecode : Decodes decode) (validateCrcs : Bool)
    {r : TypedMcapRecord} (h : r.Fits) (front rest : Bytes)
    (hsize : (front ++ r.bytes).length ≤ MAX_SAFE_INTEGER) :
    outcome decode validateCrcs r.opcode r.body front rest =
      some (some r, (front ++ r.bytes).length) := by
  simp only [TypedMcapRecord.bytes, List.length_append, length_frame] at hsize ⊢
  obtain ⟨s, hx⟩ := completes_fields hdecode h validateCrcs (front ++ r.opcode :: le 8 r.body.length)
    (by simp only [List.length_append, List.length_cons, length_le]; omega)
  have halone : fieldsOutcome decode validateCrcs r.opcode r.body front [] = .ok (r, s) := by
    rwa [fieldsOutcome, List.append_nil]
  obtain ⟨_, hbehind⟩ := fieldsOutcome_of_alone halone rest
  rw [outcome_eq (by omega), hbehind, length_frame]

theorem outcome_bytes_dataEnd :
    outcome decodeUtf8 true Opcode.DATA_END (le 4 7) [] [] = some (some (.dataEnd ⟨7⟩), 13) :=
  outcome_bytes decodes_decodeUtf8 true (r := .dataEnd ⟨7⟩) (show 7 < 2 ^ 32 by decide) [] [] (by decide)

theorem fileOf_faithful_message :
    ∃ p : Parts, McapWriter.fileOf {} ⟨"", ""⟩ acceptedCalls = .ok (p.bytes MAGIC) ∧
      (∀ k, (p.records plainOptions).length ≤ k → ∃ s,
        run decodeUtf8 plainOptions (.append (p.bytes MAGIC) :: List.replicate k .nextRecord)
          (new plainOptions) = .ok (p.records plainOptions, s) ∧ s.doneReading = true) ∧
      p.Faithful {} plainOptions acceptedCalls (acceptedIn {} ⟨"", ""⟩ acceptedCalls) :=
  fileOf_faithful decodes_decodeUtf8 (fun _ h => by cases h) rfl acceptedCalls_sound

/-- A message of a channel that is not there. -/
def refusedCalls : List Call := [.addMessage ⟨0, 1, 5, 6, [9]⟩]

/-- Statistics and nothing else behind the data section. -/
def counting : McapWriterOptions where
  useSummaryOffsets := false
  useChunks := false
  useAttachmentIndex := false
  useMetadataIndex := false
  useMessageIndex := false
  useChunkIndex := false

/-- The statistics that are written. -/
def refusedStatistics : Statistics where
  messageCount := 1
  schemaCount := 0
  channelCount := 0
  attachmentCount := 0
  metadataCount := 0
  chunkCount := 0
  messageStartTime := 5
  messageEndTime := 5
  channelMessageCounts := (∅ : Dict Nat Nat).set 0 1

/-- What comes of it. -/
def refusedParts : Parts where
  items := [.plain (.header ⟨"", ""⟩)]
  dataEnd := ⟨3959079795⟩
  groups := [⟨Opcode.SCHEMA, []⟩, ⟨Opcode.CHANNEL, []⟩,
    ⟨Opcode.STATISTICS, [.statistics refusedStatistics]⟩]
  offsets := []
  footer := ⟨38, 0, 425806812⟩

set_option maxRecDepth 8000 in
/-- **A message that is refused is counted**: no message is read, and the statistics have one. -/
theorem refused_is_counted :
    McapWriter.fileOf counting ⟨"", ""⟩ refusedCalls = .ok (refusedParts.bytes MAGIC) ∧
      (run decodeUtf8 plainOptions (.append (refusedParts.bytes MAGIC) :: List.replicate 4 .nextRecord)
        (new plainOptions)).map Prod.fst = .ok (refusedParts.records plainOptions) ∧
      acceptedIn counting ⟨"", ""⟩ refusedCalls = [] ∧
      ¬ refusedParts.Faithful counting plainOptions refusedCalls [] := by
  refine ⟨by decide +kernel, by decide +kernel, rfl, fun h => ?_⟩
  have hmem : .statistics refusedStatistics ∈ refusedParts.records plainOptions := by decide +kernel
  have hcount := (h.statistics refusedStatistics hmem).messageCount
  cases hcount

end Ts
end Mcap

import Mcap.DataSection
import Mcap.RecordExtension

/-! # Files whose records are extended

Bytes are added at the end of schemas, channels, metadata and message indexes of a data
section, at top level or inside uncompressed chunks (`Widened`).  The records get longer and so
do the chunks, and the checksums are zeroed.

The framing goes by the length of a record and not by what is read of it, so that the reader
yields the same number of records; and each of them is `Alike` to the old one, as a stream
cannot tell them apart.  So the streams yield the same (`extension_tolerated`).
-/
namespace Mcap

/-! ## Records a stream cannot tell apart -/

/-- **The records are alike**: to a stream the one is as good as the other. -/
def Alike (p q : UInt8 × Bytes) : Prop :=
  ∀ (α : Type) (look : ChannelAccumulator → RawMessage → Except McapError α)
    (acc : ChannelAccumulator) (evs : List (UInt8 × Bytes)) (fin : Final),
    streamItems look acc (p :: evs) fin = streamItems look acc (q :: evs) fin

theorem Alike.refl (p : UInt8 × Bytes) : Alike p p := fun _ _ _ _ _ => rfl

theorem alike_of_parse {p q : UInt8 × Bytes} (h : parseRecord p.1 p.2 = parseRecord q.1 q.2) :
    Alike p q := by
  intro α look acc evs fin
  simp only [streamItems, h]

theorem alike_dataEnd (d d' : DataEnd) : Alike (op.DATA_END, d.bytes) (op.DATA_END, d'.bytes) := by
  intro α look acc evs fin
  have hp : ∀ d : DataEnd, parseRecord op.DATA_END d.bytes = .ok (.dataEnd d) :=
    fun d => parse_body (r := .dataEnd d) trivial
  rw [streamItems_observe (hp d) (fun _ _ h => by cases h) rfl,
    streamItems_observe (hp d') (fun _ _ h => by cases h) rfl]

theorem alike_footer (f f' : Footer) : Alike (op.FOOTER, f.bytes) (op.FOOTER, f'.bytes) := by
  intro α look acc evs fin
  have hp : ∀ f : Footer, parseRecord op.FOOTER f.bytes = .ok (.footer f) :=
    fun f => parse_body (r := .footer f) trivial
  rw [streamItems_observe (hp f) (fun _ _ h => by cases h) rfl,
    streamItems_observe (hp f') (fun _ _ h => by cases h) rfl]

theorem streamItems_alike {α : Type} {look : ChannelAccumulator → RawMessage → Except McapError α}
    {evs evs' : List (UInt8 × Bytes)} (h : List.Forall₂ Alike evs evs') (acc : ChannelAccumulator)
    (fin : Final) : streamItems look acc evs fin = streamItems look acc evs' fin := by
  induction h generalizing acc with
  | nil => rfl
  | @cons p q evs evs' hpq _ ih =>
    rw [hpq]
    obtain ⟨opcode, data⟩ := q
    -- the record itself is the same now, and what follows is alike
    unfold streamItems
    rcases parseRecord opcode data with r | e | _
    · cases r with
      | message header payload => simp only [ih]
      | _ =>
        simp only
        split
        · exact ih _
        · rfl
    · rfl
    · rfl

/-! ## The extension of a data section -/

/-- **The record is extended**: it is a schema, a channel, a metadata record or a message
index, it can be parsed, and bytes are added at its end. -/
structure Lengthened (opcode : UInt8) (body extra : Bytes) : Prop where
  kind : opcode ∈ [op.SCHEMA, op.CHANNEL, op.METADATA, op.MESSAGE_INDEX]
  parses : ∃ r, parseRecord opcode body = .ok r
  fits : (body ++ extra).length < 2 ^ 32

/-- A record in a chunk, as it was and as it is. -/
inductive LengthenedIn : UInt8 × Bytes → UInt8 × Bytes → Prop
  | same (p : UInt8 × Bytes) : LengthenedIn p p
  | more {opcode body extra} : Lengthened opcode body extra →
      LengthenedIn (opcode, body) (opcode, body ++ extra)

/-- The header of an uncompressed chunk whose records take `n` bytes now. -/
def ChunkHeader.resized (h : ChunkHeader) (n : Nat) : ChunkHeader :=
  { h with uncompressedSize := UInt64.ofNat n, uncompressedCrc := 0, compressedSize := UInt64.ofNat n }

section
variable {δ : Type} {D : Decompressor δ} (Δ : Decoding D none) (ignoreEndMagic : Bool)

/-- **The data section is extended**, and the checksums are zeroed.  A piece of the file that is
left as it is has to be read without an error; what follows the last change need not be. -/
inductive Widened : Bytes → Bytes → Prop
  | rest {rest} : Intact (o := ChunkFlattener.options ignoreEndMagic) Δ ⟨.fileRecord, rest, none⟩ →
      Widened rest rest
  | piece {bytes evs rest rest'} :
      Yields (o := ChunkFlattener.options ignoreEndMagic) Δ ⟨.fileRecord, bytes, none⟩ evs
        ⟨.fileRecord, [], none⟩ → Widened rest rest' → Widened (bytes ++ rest) (bytes ++ rest')
  | record {opcode body extra rest rest'} : Lengthened opcode body extra → Widened rest rest' →
      Widened (frame opcode body ++ rest) (frame opcode (body ++ extra) ++ rest')
  | chunk {header : ChunkHeader} {records records' padding rest rest'} :
      header.compression = "" → header.compressedSize.toNat = (frames records).length →
      (header.uncompressedCrc = 0 ∨ header.uncompressedCrc = crc32 (frames records)) →
      List.Forall₂ LengthenedIn records records' → Widened rest rest' →
      Widened (chunkFrame header (frames records) padding ++ rest)
        (chunkFrame (header.resized (frames records').length) (frames records') padding ++ rest')
  | dataEnd {d : DataEnd} {rest rest'} : Widened rest rest' →
      Widened (frame op.DATA_END d.bytes ++ rest) (frame op.DATA_END (DataEnd.bytes ⟨0⟩) ++ rest')
  | footer {f : Footer} :
      Widened (frame op.FOOTER f.bytes ++ MAGIC)
        (frame op.FOOTER (Footer.bytes { f with summaryCrc := 0 }) ++ MAGIC)

variable {Δ ignoreEndMagic}

theorem Lengthened.known {opcode : UInt8} {body extra : Bytes} (h : Lengthened opcode body extra) :
    (op.HEADER ≤ opcode ∧ opcode ≤ op.DATA_END) ∧ opcode ≠ op.MESSAGE ∧ opcode ≠ op.CHUNK ∧
      opcode ≠ op.DATA_END ∧ opcode ≠ op.FOOTER := by
  have hkind := h.kind
  simp only [List.mem_cons, List.not_mem_nil, or_false] at hkind
  rcases hkind with rfl | rfl | rfl | rfl <;> decide

theorem Lengthened.alike {opcode : UInt8} {body extra : Bytes} (h : Lengthened opcode body extra) :
    Alike (opcode, body) (opcode, body ++ extra) := by
  obtain ⟨r, hr⟩ := h.parses
  refine alike_of_parse ?_
  rw [hr, parse_append h.known.1 h.known.2.1 hr h.fits]

theorem LengthenedIn.alike {p q : UInt8 × Bytes} (h : LengthenedIn p q) : Alike p q := by
  cases h with
  | same => exact .refl p
  | more h => exact h.alike

theorem yields_paddedChunk {header : ChunkHeader} {records : List (UInt8 × Bytes)}
    {padding : Bytes} (hname : header.compression = "")
    (hsize : header.compressedSize.toNat = (frames records).length)
    (hcrc : header.uncompressedCrc = 0 ∨ header.uncompressedCrc = crc32 (frames records))
    (hlen : (chunkFrame header (frames records) padding).length ≤ USIZE_MAX) (rest : Bytes) :
    Yields (o := ChunkFlattener.options ignoreEndMagic) Δ
      ⟨.fileRecord, chunkFrame header (frames records) padding ++ rest, none⟩ records
      ⟨.fileRecord, rest, none⟩ := by
  have hwhole : ChunkWhole (o := ChunkFlattener.options ignoreEndMagic) Δ header (frames records)
      (frames records) := by
    refine ⟨?_, hsize, ?_, fun _ => rfl, fun hne => absurd hname hne⟩
    · rw [hname]
      decide
    · rw [hname]
      rfl
  obtain ⟨s, phase, hfront, hs⟩ := yields_chunkHeader rfl hwhole (admits_of_none rfl _) hlen rest none
  have hmem : (frames records).length ≤ USIZE_MAX := by
    simp only [chunkFrame, length_frame, List.length_append] at hlen
    omega
  have hskip : ∀ (c : OpenChunk), c.padding = padding.length →
      (∀ hasher, c.hasher = some hasher → c.crc = 0 ∨ c.crc = hasher.finalize) →
      Spec.turn D (ChunkFlattener.options ignoreEndMagic)
        ⟨.paddingAfterChunk c, padding ++ rest, none⟩ = .again ⟨.fileRecord, rest, none⟩ := by
    intro c hpad hcrc
    simp only [Spec.turn, Spec.paddingAfterChunk]
    rw [Spec.need_of_le (by simp [hpad]), Spec.skip_append hpad.symm]
    cases hh : c.hasher with
    | none => rfl
    | some hasher =>
      simp only
      rw [if_neg ?_]
      · rfl
      · rintro ⟨h0, hne⟩
        exact (hcrc hasher hh).elim h0 hne
  simp only [Spec.enterChunk, if_pos hname, hsize] at hs
  refine hfront.trans (.again hs ?_)
  have hrecords := yields_plainChunk (Δ := Δ) (o := ChunkFlattener.options ignoreEndMagic)
    (fun p _ => admits_of_none rfl _) hmem
    { crc := header.uncompressedCrc
      hasher := if Spec.streaming (ChunkFlattener.options ignoreEndMagic) header then some Hasher.new
        else none
      padding := padding.length } (padding ++ rest) none
  have hpadding := hskip { crc := header.uncompressedCrc
                           hasher := Spec.absorb (if Spec.streaming
                             (ChunkFlattener.options ignoreEndMagic) header then some Hasher.new
                               else none) (frames records)
                           padding := padding.length } rfl (by
    intro hasher hh
    split at hh
    · cases hh
      exact hcrc
    · cases hh)
  have hall := hrecords.trans (.again hpadding (.refl _))
  rwa [List.append_nil] at hall

/-- **An extended data section is read alike.** -/
theorem parses_widened {bytes bytes' : Bytes} (h : Widened Δ ignoreEndMagic bytes bytes')
    (hmem : bytes.length ≤ USIZE_MAX) (hmem' : bytes'.length ≤ USIZE_MAX) :
    ∃ evs evs' fin,
      Parses (o := ChunkFlattener.options ignoreEndMagic) D Δ ⟨.fileRecord, bytes, none⟩ evs fin ∧
      Parses (o := ChunkFlattener.options ignoreEndMagic) D Δ ⟨.fileRecord, bytes', none⟩ evs' fin ∧
      List.Forall₂ Alike evs evs' := by
  induction h with
  | rest hi =>
    obtain ⟨evs, fin, hp⟩ := parses_of_intact hi
    exact ⟨evs, evs, fin, hp, hp, List.forall₂_same.mpr fun p _ => .refl p⟩
  | @piece piece evs₀ rest rest' hy _ ih =>
    simp only [List.length_append] at hmem hmem'
    obtain ⟨evs, evs', fin, hp, hp', halike⟩ := ih (by omega) (by omega)
    refine ⟨evs₀ ++ evs, evs₀ ++ evs', fin, (hy.append rest).parses hp,
      (hy.append rest').parses hp', ?_⟩
    exact List.rel_append (List.forall₂_same.mpr fun p _ => .refl p) halike
  | @record opcode body extra rest rest' hl _ ih =>
    simp only [List.length_append] at hmem hmem'
    obtain ⟨evs, evs', fin, hp, hp', halike⟩ := ih (by omega) (by omega)
    obtain ⟨-, -, hchunk, hend, hfoot⟩ := hl.known
    have hrecord : ∀ body rest, (frame opcode body).length ≤ USIZE_MAX →
        Yields (o := ChunkFlattener.options ignoreEndMagic) Δ
          ⟨.fileRecord, frame opcode body ++ rest, none⟩ [(opcode, body)]
          ⟨.fileRecord, rest, none⟩ := fun body rest hlen =>
      yields_record (fun h => absurd h hchunk) hend hfoot hlen (admits_of_none rfl _)
    exact ⟨_, _, fin, (hrecord body rest (by omega)).parses hp,
      (hrecord (body ++ extra) rest' (by omega)).parses hp', .cons hl.alike halike⟩
  | @chunk header records records' padding rest rest' hname hsize hcrc hrecords _ ih =>
    simp only [List.length_append] at hmem hmem'
    obtain ⟨evs, evs', fin, hp, hp', halike⟩ := ih (by omega) (by omega)
    have hresized : ((header.resized (frames records').length).compressedSize).toNat =
        (frames records').length := by
      refine UInt64.toNat_ofNat_of_lt' ?_
      have hlen : (frames records').length ≤ USIZE_MAX := by
        simp only [chunkFrame, length_frame, List.length_append] at hmem'
        omega
      exact Nat.lt_of_le_of_lt hlen (by decide)
    have hcrc' : (header.resized (frames records').length).uncompressedCrc = 0 := rfl
    have hname' : (header.resized (frames records').length).compression = "" := hname
    have hlen : (chunkFrame header (frames records) padding).length ≤ USIZE_MAX := by omega
    have hlen' : (chunkFrame (header.resized (frames records').length) (frames records')
      padding).length ≤ USIZE_MAX := by omega
    refine ⟨_, _, fin, (yields_paddedChunk hname hsize hcrc hlen rest).parses hp,
      (yields_paddedChunk hname' hresized (.inl hcrc') hlen' rest').parses hp', ?_⟩
    exact List.rel_append (hrecords.imp fun _ _ h => h.alike) halike
  | @dataEnd d rest rest' _ ih =>
    simp only [List.length_append] at hmem hmem'
    obtain ⟨evs, evs', fin, hp, hp', halike⟩ := ih (by omega) (by omega)
    have hend : ∀ d rest, Yields (o := ChunkFlattener.options ignoreEndMagic) Δ
        ⟨.fileRecord, frame op.DATA_END (DataEnd.bytes d) ++ rest, none⟩
          [(op.DATA_END, DataEnd.bytes d)] ⟨.fileRecord, rest, none⟩ := fun d rest =>
      yields_dataEnd (admits_of_none rfl _) (fun _ h => by cases h) rest
    exact ⟨_, _, fin, (hend d rest).parses hp, (hend ⟨0⟩ rest').parses hp',
      .cons (alike_dataEnd d ⟨0⟩) halike⟩
  | @footer f =>
    have hend : ∀ f : Footer, Parses (o := ChunkFlattener.options ignoreEndMagic) D Δ
        ⟨.fileRecord, frame op.FOOTER f.bytes ++ MAGIC, none⟩ [(op.FOOTER, f.bytes)] .finished :=
      fun f => parses_footer_magic (admits_of_none rfl _) (fun _ h => by cases h)
    exact ⟨_, _, .finished, hend f, hend _, .cons (alike_footer f _) .nil⟩

theorem drains_file {α : Type} (look : ChannelAccumulator → RawMessage → Except McapError α)
    {bytes : Bytes} {evs : List (UInt8 × Bytes)} {fin : Final}
    (hp : Parses (o := ChunkFlattener.options ignoreEndMagic) D Δ ⟨.fileRecord, bytes, none⟩ evs fin) :
    Drains (RawMessageStream.nextWith D look) (RawMessageStream.new ignoreEndMagic (MAGIC ++ bytes))
      (streamItems look .empty evs fin).1 (streamItems look .empty evs fin).2 := by
  have hparses := Parses.again (turn_startMagic_append (o := ChunkFlattener.options ignoreEndMagic)
    rfl bytes none) hp
  exact RawMessageStream.drains (observes_of_parses hparses
    (sim_init (o := ChunkFlattener.options ignoreEndMagic) Δ (MAGIC ++ bytes))) .empty

/-- **Readers tolerate extended records.**  A record of any kind but a message is parsed to the
same value when bytes are added to it; and a file whose schemas, channels, metadata records
and message indexes are extended has the same messages, or ends in the same error. -/
theorem extension_tolerated (Δ : Decoding D none) (ignoreEndMagic : Bool) :
    (∀ (opcode : UInt8) (body extra : Bytes) (r : Record),
      op.HEADER ≤ opcode ∧ opcode ≤ op.DATA_END → opcode ≠ op.MESSAGE →
      parseRecord opcode body = .ok r → (body ++ extra).length < 2 ^ 32 →
      parseRecord opcode (body ++ extra) = .ok r) ∧
    (∀ bytes bytes' : Bytes, Widened Δ ignoreEndMagic bytes bytes' →
      bytes.length ≤ USIZE_MAX → bytes'.length ≤ USIZE_MAX →
      ∃ items ending,
        Drains (MessageStream.next D) (RawMessageStream.new ignoreEndMagic (MAGIC ++ bytes))
          items ending ∧
        Drains (MessageStream.next D) (RawMessageStream.new ignoreEndMagic (MAGIC ++ bytes'))
          items ending) := by
  refine ⟨fun opcode body extra r hknown hmessage hp hlen => parse_append hknown hmessage hp hlen,
    fun bytes bytes' h hmem hmem' => ?_⟩
  obtain ⟨evs, evs', fin, hp, hp', halike⟩ := parses_widened h hmem hmem'
  have hd := drains_file ChannelAccumulator.message hp
  have hd' := drains_file ChannelAccumulator.message hp'
  rw [← streamItems_alike halike] at hd'
  exact ⟨_, _, hd, hd'⟩

end

/-- The header of the chunk that holds `sentRecords`. -/
def sentChunk : ChunkHeader where
  messageStartTime := 5
  messageEndTime := 5
  uncompressedSize := 58
  uncompressedCrc := 0
  compression := ""
  compressedSize := 58

/-- The records of the chunk, with two bytes more at the end of the channel. -/
def extendedRecords : List (UInt8 × Bytes) :=
  [(op.CHANNEL, sentChannel.bytes ++ [1, 2]), (op.MESSAGE, sentHeader.bytes ++ [7])]

/-- A channel that is extended, alone and in the chunk of a file. -/
theorem extension_tolerated_channel :
    parseRecord op.CHANNEL (sentChannel.bytes ++ [1, 2]) = .ok (.channel sentChannel) ∧
      ∃ items ending,
        Drains (MessageStream.next storedLz4) (RawMessageStream.new false (MAGIC ++
          (chunkFrame sentChunk (frames (sentRecords.map Record.raw)) [] ++
            (frame op.DATA_END (DataEnd.bytes ⟨5⟩) ++ sentSummary)))) items ending ∧
        Drains (MessageStream.next storedLz4) (RawMessageStream.new false (MAGIC ++
          (chunkFrame (sentChunk.resized (frames extendedRecords).length) (frames extendedRecords) [] ++
              (frame op.DATA_END (DataEnd.bytes ⟨0⟩) ++ sentSummary)))) items ending := by
  have hparse : parseRecord op.CHANNEL sentChannel.bytes = .ok (.channel sentChannel) :=
    parse_body (r := .channel sentChannel) ⟨by decide, by decide, stringMapFits_empty⟩
  have hrecords : List.Forall₂ LengthenedIn (sentRecords.map Record.raw) extendedRecords :=
    .cons (.more ⟨by decide, ⟨_, hparse⟩, by decide⟩) (.cons (.same _) .nil)
  have hsize : sentChunk.compressedSize.toNat = (frames (sentRecords.map Record.raw)).length := by
    decide
  have hwidened : Widened storedDecoding false (chunkFrame sentChunk (frames (sentRecords.map Record.raw))
      [] ++ (frame op.DATA_END (DataEnd.bytes ⟨5⟩) ++ sentSummary))
      (chunkFrame (sentChunk.resized (frames extendedRecords).length) (frames extendedRecords) [] ++
        (frame op.DATA_END (DataEnd.bytes ⟨0⟩) ++ sentSummary)) :=
    .chunk rfl hsize (.inl rfl) hrecords (.dataEnd (.footer (f := ⟨0, 0, 0⟩)))
  have htol := extension_tolerated (D := storedLz4) storedDecoding false
  exact ⟨htol.1 op.CHANNEL _ [1, 2] _ (by decide) (by decide) hparse (by decide),
    htol.2 _ _ hwidened (by decide +kernel) (by decide +kernel)⟩

end Mcap

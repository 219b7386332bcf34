import Mcap.Framing
import Mcap.Layout
import Mcap.RecordCodec

/-! # Reading intact input

What the reader that has everything does on input that is well formed: a record is yielded
and left behind, and so are the records of a chunk, one by one.  `Yields s evs s'` says that
from `s` the reader yields `evs` and then is at `s'`, whatever follows.

A chunk is well formed if its header says what is in it (`ChunkIntact`): the sizes are right,
the compressed bytes unpack to the records, and the checksum, if there is one, is that of the
records.  Then the reader yields its records whichever way it checks them (`yields_chunk`).
-/
namespace Mcap
open LinearReader (opcodeAndLen MIN_CHUNK_HEADER_SIZE)

section
variable {δ : Type} {D : Decompressor δ} {o : LinearReaderOptions}

/-- From `s` the reader yields `evs`, and then it is at `s'`.  The compressed chunks it opens
on the way are intact. -/
inductive Yields (Δ : Decoding D o.recordLengthLimit) :
    Spec → List (UInt8 × Bytes) → Spec → Prop
  | refl (s : Spec) : Yields Δ s [] s
  | again {s s' s'' evs} : s.turn D o = .again s' → Yields Δ s' evs s'' → Yields Δ s evs s''
  | record {s s' s'' opcode data evs} : s.turn D o = .record opcode data s' →
      Yields Δ s' evs s'' → Yields Δ s ((opcode, data) :: evs) s''
  | packed {s s'' name size c n k out evs} : s.turn D o = .packed name size c n k →
      c.length = size → out.length = n → Unpacks Δ name c out → Yields Δ (k out) evs s'' →
      Yields Δ s evs s''

variable {Δ : Decoding D o.recordLengthLimit} {s s' s'' : Spec} {evs evs' : List (UInt8 × Bytes)}
  {h : Option Hasher} {header : ChunkHeader} {compressed : Bytes}

theorem Yields.trans (h : Yields Δ s evs s') (h' : Yields Δ s' evs' s'') :
    Yields Δ s (evs ++ evs') s'' := by
  induction h with
  | refl s => exact h'
  | again ht _ ih => exact .again ht (ih h')
  | record ht _ ih => exact .record ht (ih h')
  | packed ht hsize hn hunp _ ih => exact .packed ht hsize hn hunp (ih h')

theorem Yields.parses {fin : Final} (h : Yields Δ s evs s') (hp : Parses D Δ s' evs' fin) :
    Parses D Δ s (evs ++ evs') fin := by
  induction h with
  | refl s => exact hp
  | again ht _ ih => exact .again ht (ih hp)
  | record ht _ ih => exact .record ht (ih hp)
  | packed ht hsize hn hunp _ ih => exact .packed ht hsize hn hunp (ih hp)

/-- The reader takes a length of `n`. -/
def Admits (o : LinearReaderOptions) (n : Nat) : Prop := checkLen n o.recordLengthLimit = some n

theorem admits_of_none (h : o.recordLengthLimit = none) (n : Nat) : Admits o n := by
  rw [Admits, h]
  rfl

theorem Admits.mono {m n : Nat} (h : Admits o n) (hle : m ≤ n) : Admits o m := by
  unfold Admits checkLen at *
  cases hl : o.recordLengthLimit with
  | none => rfl
  | some l =>
    simp only [hl] at h ⊢
    split at h
    · cases h
    · rw [if_neg (by omega)]

/-! ## The front of the input -/

theorem Spec.need_of_le {n : Nat} {k : SpecTurn} (h : n ≤ s.bytes.length) : s.need n k = k :=
  if_neg (Nat.not_lt.mpr h)

theorem Spec.absorb_absorb (h : Option Hasher) (a b : Bytes) :
    absorb (absorb h a) b = absorb h (a ++ b) := by
  cases h <;> simp [absorb]

theorem Spec.absorb_nil (h : Option Hasher) : absorb h [] = h := by
  cases h <;> simp [absorb]

theorem Spec.skip_append {phase : Phase} {a b : Bytes} {n : Nat}
    (hn : a.length = n) : Spec.skip ⟨phase, a ++ b, h⟩ n = ⟨phase, b, absorb h a⟩ := by
  simp only [Spec.skip, List.take_left' hn, List.drop_left' hn]

theorem take_frame (opcode : UInt8) (body rest : Bytes) :
    (frame opcode body ++ rest).take OPCODE_LEN_SIZE = opcode :: le 8 body.length := by
  have hf : frame opcode body ++ rest = (opcode :: le 8 body.length) ++ (body ++ rest) := by
    simp [frame]
  rw [hf]
  exact List.take_left' (by simp [OPCODE_LEN_SIZE, length_le])

theorem length_frame_append (opcode : UInt8) (body rest : Bytes) :
    (frame opcode body ++ rest).length = OPCODE_LEN_SIZE + body.length + rest.length := by
  rw [List.length_append, length_frame]
  rfl

theorem take_whole_frame (opcode : UInt8) (body rest : Bytes) :
    (frame opcode body ++ rest).take (OPCODE_LEN_SIZE + body.length) = frame opcode body :=
  List.take_left' (length_frame _ _)

theorem drop_whole_frame (opcode : UInt8) (body rest : Bytes) :
    (frame opcode body ++ rest).drop (OPCODE_LEN_SIZE + body.length) = rest :=
  List.drop_left' (length_frame _ _)

theorem drop_frame_self (opcode : UInt8) (body : Bytes) :
    (frame opcode body).drop OPCODE_LEN_SIZE = body := by
  have h := drop_frame opcode body []
  rwa [List.append_nil, List.append_nil] at h

theorem turn_startMagic_append (hskip : o.skipStartMagic = false) (rest : Bytes)
    (h : Option Hasher) : Spec.turn D o ⟨.startMagic, MAGIC ++ rest, h⟩ =
      .again ⟨.fileRecord, rest, Spec.absorb h MAGIC⟩ := by
  simp only [Spec.turn, Spec.startMagic, hskip]
  rw [if_neg Bool.false_ne_true, Spec.need_of_le (by simp), Spec.skip_append rfl,
    if_neg (not_not_intro List.take_left)]

theorem turn_fileRecord {opcode : UInt8} {body : Bytes} (rest : Bytes) (h : Option Hasher)
    (hmem : (frame opcode body).length ≤ USIZE_MAX) :
    Spec.turn D o ⟨.fileRecord, frame opcode body ++ rest, h⟩ =
      if opcode = op.CHUNK ∧ !o.emitChunks then
        .again ⟨.chunkHeader body.length, body ++ rest,
          Spec.absorb h (opcode :: le 8 body.length)⟩
      else if opcode = op.DATA_END then
        .again ⟨.dataEnd body.length (h.map Hasher.finalize), body ++ rest, none⟩
      else if opcode = op.FOOTER then
        .again ⟨.footer body.length (Spec.absorb h (opcode :: le 8 body.length)), body ++ rest,
          none⟩
      else
        match checkLen body.length o.recordLengthLimit with
        | none => .fail (.recordTooLarge opcode body.length)
        | some _ => .record opcode body ⟨.fileRecord, rest, Spec.absorb h (frame opcode body)⟩ := by
  have hlen := length_frame_append opcode body rest
  rw [length_frame] at hmem
  have hroom : ¬ OPCODE_LEN_SIZE + body.length > USIZE_MAX := by
    simp only [OPCODE_LEN_SIZE]
    omega
  simp only [Spec.turn, Spec.fileRecord]
  rw [Spec.need_of_le (by simp only [hlen]; omega)]
  simp only [opcodeAndLen_frame (show body.length ≤ USIZE_MAX by omega)]
  simp only [Spec.skip, drop_frame, take_frame]
  split
  · rfl
  split
  · rfl
  split
  · rfl
  · cases hc : checkLen body.length o.recordLengthLimit with
    | none => rfl
    | some n =>
      obtain rfl : n = body.length := checkLen_eq hc
      simp only
      rw [if_neg hroom, Spec.need_of_le (by simp only [hlen]; omega)]
      simp only [take_whole_frame, drop_frame_self, drop_whole_frame]

/-- **A record is yielded** and left behind. -/
theorem yields_record {opcode : UInt8} {body rest : Bytes}
    (hchunk : opcode = op.CHUNK → o.emitChunks = true) (hend : opcode ≠ op.DATA_END)
    (hfoot : opcode ≠ op.FOOTER) (hmem : (frame opcode body).length ≤ USIZE_MAX)
    (hw : Admits o body.length) :
    Yields Δ ⟨.fileRecord, frame opcode body ++ rest, h⟩ [(opcode, body)]
      ⟨.fileRecord, rest, Spec.absorb h (frame opcode body)⟩ := by
  refine .record ?_ (.refl _)
  rw [turn_fileRecord rest h hmem, if_neg ?_, if_neg hend, if_neg hfoot, hw]
  rintro ⟨hc, hemit⟩
  simp [hchunk hc] at hemit

/-! ## Chunks -/

theorem yields_plainChunk {evs : List (UInt8 × Bytes)} (hw : ∀ p ∈ evs, Admits o p.2.length)
    (hmem : (frames evs).length ≤ USIZE_MAX) (c : OpenChunk) (rest : Bytes) (h : Option Hasher) :
    Yields Δ ⟨.plainChunk (frames evs).length c, frames evs ++ rest, h⟩ evs
      ⟨.paddingAfterChunk { c with hasher := Spec.absorb c.hasher (frames evs) }, rest,
        Spec.absorb h (frames evs)⟩ := by
  induction evs generalizing c h with
  | nil =>
    refine .again (show _ = SpecTurn.again ⟨.paddingAfterChunk c, rest, h⟩ from rfl) ?_
    rw [frames_nil, Spec.absorb_nil, Spec.absorb_nil]
    exact .refl _
  | cons p evs ih =>
    obtain ⟨opcode, body⟩ := p
    have hlen := length_frame_append opcode body (frames evs ++ rest)
    rw [frames_cons, List.length_append, length_frame] at hmem
    have hleft : (frame opcode body ++ frames evs).length - (OPCODE_LEN_SIZE + body.length) =
        (frames evs).length := by
      rw [length_frame_append]
      omega
    have hturn : Spec.turn D o ⟨.plainChunk (frames ((opcode, body) :: evs)).length c,
        frames ((opcode, body) :: evs) ++ rest, h⟩ = .record opcode body
          ⟨.plainChunk (frames evs).length
            { c with hasher := Spec.absorb c.hasher (frame opcode body) }, frames evs ++ rest,
            Spec.absorb h (frame opcode body)⟩ := by
      simp only [Spec.turn, Spec.plainChunk, frames_cons, List.append_assoc]
      rw [if_neg (by rw [List.length_append, length_frame]; omega),
        Spec.need_of_le (by simp only [hlen]; omega)]
      simp only [opcodeAndLen_frame (show body.length ≤ USIZE_MAX by omega)]
      rw [show checkLen body.length o.recordLengthLimit = some body.length from
        hw _ List.mem_cons_self]
      simp only
      rw [if_neg (by simp only [OPCODE_LEN_SIZE]; omega),
        Spec.need_of_le (by simp only [hlen]; omega), if_neg (by
          rw [List.length_append, length_frame]
          simp only [OPCODE_LEN_SIZE]
          omega)]
      simp only [Spec.skip, take_whole_frame, drop_frame_self, drop_whole_frame, hleft]
    have hnext := ih (fun q hq => hw q (List.mem_cons_of_mem _ hq)) (by omega)
      { c with hasher := Spec.absorb c.hasher (frame opcode body) } (Spec.absorb h (frame opcode body))
    simp only [Spec.absorb_absorb] at hnext
    exact .record hturn hnext

theorem yields_packedChunk {evs : List (UInt8 × Bytes)} (hw : ∀ p ∈ evs, Admits o p.2.length)
    {base : Nat} (hmem : base + (frames evs).length ≤ ISIZE_MAX) (validated : Bool) (c : OpenChunk)
    (rest : Bytes) (h : Option Hasher) :
    Yields Δ ⟨.packedChunk (frames evs) base validated c, rest, h⟩ evs
      ⟨.paddingAfterChunk { c with hasher := Spec.absorb c.hasher (frames evs) }, rest, h⟩ := by
  induction evs generalizing c base with
  | nil =>
    refine .again (show _ = SpecTurn.again ⟨.paddingAfterChunk c, rest, h⟩ from rfl) ?_
    rw [frames_nil, Spec.absorb_nil]
    exact .refl _
  | cons p evs ih =>
    obtain ⟨opcode, body⟩ := p
    have hlen := length_frame_append opcode body (frames evs)
    have husize : ISIZE_MAX ≤ USIZE_MAX := by decide
    rw [frames_cons, hlen] at hmem
    have hturn : Spec.turn D o ⟨.packedChunk (frames ((opcode, body) :: evs)) base validated c, rest,
        h⟩ = .record opcode body ⟨.packedChunk (frames evs)
          (if validated then base + (OPCODE_LEN_SIZE + body.length) else 0) validated
            { c with hasher := Spec.absorb c.hasher (frame opcode body) }, rest, h⟩ := by
      simp only [Spec.turn, Spec.packedChunk]
      rw [if_neg (by simp [frame]), if_neg (by omega), if_neg (by rw [frames_cons, hlen]; omega)]
      simp only [frames_cons]
      simp only [opcodeAndLen_frame (show body.length ≤ USIZE_MAX by omega)]
      rw [show checkLen body.length o.recordLengthLimit = some body.length from
        hw _ List.mem_cons_self]
      simp only
      rw [if_neg (by omega), if_neg (by omega), if_neg (by omega)]
      simp only [take_whole_frame, drop_frame_self, drop_whole_frame]
    have hbase : (if validated then base + (OPCODE_LEN_SIZE + body.length) else 0) +
        (frames evs).length ≤ ISIZE_MAX := by
      split <;> omega
    have hnext := ih (fun q hq => hw q (List.mem_cons_of_mem _ hq)) hbase
      { c with hasher := Spec.absorb c.hasher (frame opcode body) }
    simp only [Spec.absorb_absorb] at hnext
    exact .record hturn hnext

theorem turn_paddingAfterChunk {c : OpenChunk} (hpad : c.padding = 0)
    (hcrc : ∀ hasher, c.hasher = some hasher → c.crc = 0 ∨ c.crc = hasher.finalize) (rest : Bytes)
    (h : Option Hasher) : Spec.turn D o ⟨.paddingAfterChunk c, rest, h⟩ =
      .again ⟨.fileRecord, rest, h⟩ := by
  have hskip : Spec.skip ⟨.paddingAfterChunk c, rest, h⟩ 0 = ⟨.paddingAfterChunk c, rest, h⟩ :=
    Spec.skip_append (a := []) rfl |>.trans (by rw [Spec.absorb_nil])
  simp only [Spec.turn, Spec.paddingAfterChunk, hpad, hskip]
  rw [Spec.need_of_le (Nat.zero_le _)]
  cases hh : c.hasher with
  | none => rfl
  | some hasher =>
    simp only
    rw [if_neg ?_]
    rintro ⟨h0, hne⟩
    exact (hcrc hasher hh).elim h0 hne

/-- **The chunk is whole**: its header says what is in it, and `out` is what it unpacks to. -/
structure ChunkWhole (Δ : Decoding D o.recordLengthLimit) (header : ChunkHeader)
    (compressed out : Bytes) : Prop where
  compression : StringFits header.compression
  compressedSize : header.compressedSize.toNat = compressed.length
  available : Spec.available D header.compression = .ok ()
  plain : header.compression = "" → compressed = out
  unpacks : header.compression ≠ "" → header.uncompressedSize.toNat = out.length ∧
    Unpacks Δ header.compression compressed out

/-- **The chunk is intact**: it is whole, and its checksum is right, if it has one. -/
structure ChunkIntact (Δ : Decoding D o.recordLengthLimit) (header : ChunkHeader)
    (compressed out : Bytes) : Prop extends ChunkWhole Δ header compressed out where
  crc : header.uncompressedCrc = 0 ∨ header.uncompressedCrc = crc32 out

theorem headerLen_chunkHeader (header : ChunkHeader) (hc : StringFits header.compression)
    (rest : Bytes) : MIN_CHUNK_HEADER_SIZE + ofLe (((header.bytes ++ rest).drop 28).take 4) =
      header.bytes.length := by
  have hsplit : header.bytes ++ rest = (u64 header.messageStartTime ++ u64 header.messageEndTime ++
      u64 header.uncompressedSize ++ u32 header.uncompressedCrc) ++
        (le 4 (utf8 header.compression).length ++ (utf8 header.compression ++
          (u64 header.compressedSize ++ rest))) := by
    simp [ChunkHeader.bytes, writeString]
  rw [hsplit, List.drop_left' (by simp), List.take_left' (length_le 4 _), ofLe_le_of_lt hc,
    ChunkHeader.length_bytes, MIN_CHUNK_HEADER_SIZE]

/-- The record of a chunk, with padding behind the compressed data. -/
def chunkFrame (header : ChunkHeader) (compressed padding : Bytes) : Bytes :=
  frame op.CHUNK (header.bytes ++ (compressed ++ padding))

/-- **A chunk is entered** once its opcode, its length and its header have been read. -/
theorem yields_chunkHeader (hemit : o.emitChunks = false) {padding out : Bytes}
    (hc : ChunkWhole Δ header compressed out) (hpad : Admits o padding.length)
    (hlen : (chunkFrame header compressed padding).length ≤ USIZE_MAX) (rest : Bytes)
    (h : Option Hasher) :
    ∃ s phase, Yields Δ ⟨.fileRecord, chunkFrame header compressed padding ++ rest, h⟩ [] s ∧
      s.turn D o = Spec.enterChunk o ⟨phase, compressed ++ (padding ++ rest),
        Spec.absorb h (op.CHUNK :: le 8 (header.bytes ++ (compressed ++ padding)).length ++
          header.bytes)⟩ header padding.length := by
  have hturn := turn_fileRecord (D := D) (o := o) rest h hlen
  rw [if_pos ⟨rfl, by rw [hemit]; rfl⟩] at hturn
  refine ⟨_, .chunkHeader (header.bytes ++ (compressed ++ padding)).length,
    .again hturn (.refl _), ?_⟩
  have hmin : MIN_CHUNK_HEADER_SIZE ≤ header.bytes.length := by
    rw [ChunkHeader.length_bytes, MIN_CHUNK_HEADER_SIZE]
    omega
  have hread : readLeFrom ChunkHeader.read header.bytes = .ok (header, ⟨[], header.bytes.length⟩) := by
    have h := (ChunkHeader.reads hc.compression).readLeFrom []
    rwa [List.append_nil] at h
  simp only [Spec.turn, Spec.chunkHeader, List.append_assoc]
  rw [headerLen_chunkHeader header hc.compression,
    Spec.need_of_le (by simp only [List.length_append]; omega),
    Spec.need_of_le (by simp only [List.length_append]; omega), List.take_left' rfl, hread]
  simp only [hc.available]
  have hleft : (header.bytes ++ (compressed ++ padding)).length - header.bytes.length -
      header.compressedSize.toNat = padding.length := by
    rw [hc.compressedSize, List.length_append, List.length_append]
    omega
  rw [if_neg (by rw [List.length_append]; omega), if_neg (by
    rw [List.length_append, List.length_append, hc.compressedSize]
    omega), hleft, show checkLen padding.length o.recordLengthLimit = some padding.length from hpad]
  simp only
  rw [Spec.skip_append rfl, Spec.absorb_absorb]

theorem length_body_le_frames {evs : List (UInt8 × Bytes)} {p : UInt8 × Bytes} (hp : p ∈ evs) :
    p.2.length ≤ (frames evs).length := by
  induction evs with
  | nil => cases hp
  | cons q evs ih =>
    rw [frames_cons, List.length_append, length_frame]
    rcases List.mem_cons.mp hp with rfl | hp
    · omega
    · have := ih hp
      omega

/-- The open chunk after its header. -/
def openedChunk (o : LinearReaderOptions) (header : ChunkHeader) : OpenChunk where
  crc := header.uncompressedCrc
  hasher := if Spec.streaming o header then some Hasher.new else none
  padding := 0

theorem yields_padding {out : Bytes} (hi : ChunkIntact Δ header compressed out) (rest : Bytes)
    (h : Option Hasher) :
    Yields Δ ⟨.paddingAfterChunk { openedChunk o header with
      hasher := Spec.absorb (openedChunk o header).hasher out }, rest, h⟩ []
        ⟨.fileRecord, rest, h⟩ := by
  refine .again (turn_paddingAfterChunk rfl ?_ rest h) (.refl _)
  intro hasher hh
  simp only [openedChunk] at hh ⊢
  split at hh
  · cases hh
    exact hi.crc
  · cases hh

/-- **The records of an open chunk** are yielded, whichever way they are checked. -/
theorem yields_enterChunk {evs : List (UInt8 × Bytes)}
    (hi : ChunkIntact Δ header compressed (frames evs)) (hw : Admits o (frames evs).length)
    (hmem : (frames evs).length ≤ ISIZE_MAX) {s : Spec} {phase : Phase} {rest : Bytes}
    (hs : s.turn D o = Spec.enterChunk o ⟨phase, compressed ++ rest, h⟩ header 0) :
    Yields Δ s evs ⟨.fileRecord, rest, Spec.absorb h compressed⟩ := by
  have hbodies : ∀ p ∈ evs, Admits o p.2.length := fun p hp => hw.mono (length_body_le_frames hp)
  have husize : ISIZE_MAX ≤ USIZE_MAX := by decide
  have hcrc : Spec.prevalidated o header = true → crc32 (frames evs) = (openedChunk o header).crc := by
    intro hpre
    rcases hi.crc with h0 | hcrc
    · simp [Spec.prevalidated, h0] at hpre
    · exact hcrc.symm
  simp only [Spec.enterChunk] at hs
  rw [← openedChunk, hi.compressedSize] at hs
  by_cases hname : header.compression = ""
  · rw [if_pos hname] at hs
    obtain rfl := hi.plain hname
    -- the records are sliced out of the input
    have hrecords : Yields Δ ⟨.plainChunk (frames evs).length (openedChunk o header),
        frames evs ++ rest, h⟩ evs ⟨.fileRecord, rest, Spec.absorb h (frames evs)⟩ := by
      have hp := (yields_plainChunk (Δ := Δ) hbodies (by omega) (openedChunk o header) rest h).trans
        (yields_padding hi rest (Spec.absorb h (frames evs)))
      rwa [List.append_nil] at hp
    refine .again hs ?_
    split
    · rename_i hpre
      refine .again (show _ = SpecTurn.again ⟨.plainChunk (frames evs).length
        (openedChunk o header), frames evs ++ rest, h⟩ from ?_) hrecords
      simp only [Spec.turn, Spec.validatingPlain]
      rw [show checkLen _ o.recordLengthLimit = _ from hw]
      simp only [Spec.need_of_le (s := ⟨_, frames evs ++ rest, h⟩) (n := (frames evs).length)
        (by simp), List.take_left]
      rw [if_neg (not_not_intro (hcrc hpre))]
    · exact hrecords
  · rw [if_neg hname] at hs
    have hrecords : ∀ validated, Yields Δ ⟨.packedChunk (frames evs) 0 validated
        (openedChunk o header), rest, Spec.absorb h compressed⟩ evs
          ⟨.fileRecord, rest, Spec.absorb h compressed⟩ := by
      intro validated
      have hbase : 0 + (frames evs).length ≤ ISIZE_MAX := by omega
      have hp := (yields_packedChunk (Δ := Δ) hbodies hbase validated (openedChunk o header) rest
        (Spec.absorb h compressed)).trans (yields_padding hi rest (Spec.absorb h compressed))
      rwa [List.append_nil] at hp
    refine .packed hs ?_ (hi.unpacks hname).1.symm ?_ ?_
    · simp
    · rw [List.take_left]
      exact (hi.unpacks hname).2
    · rw [Spec.skip_append rfl]
      simp only
      split
      · rename_i hpre
        refine .again (show _ = SpecTurn.again ⟨.packedChunk (frames evs) 0 true
          (openedChunk o header), rest, Spec.absorb h compressed⟩ from ?_) (hrecords true)
        simp only [Spec.turn, Spec.validatingPacked]
        rw [show checkLen _ o.recordLengthLimit = _ from hw]
        simp only
        rw [if_neg (by omega), if_neg (not_not_intro (hcrc hpre))]
      · exact hrecords false

/-- **The records of a chunk are yielded**, and the chunk is left behind. -/
theorem yields_chunk (hemit : o.emitChunks = false) {evs : List (UInt8 × Bytes)}
    (hi : ChunkIntact Δ header compressed (frames evs)) (hw : Admits o (frames evs).length)
    (hmem : (frames evs).length ≤ ISIZE_MAX)
    (hlen : (frame op.CHUNK (header.bytes ++ compressed)).length ≤ USIZE_MAX) (rest : Bytes)
    (h : Option Hasher) :
    Yields Δ ⟨.fileRecord, frame op.CHUNK (header.bytes ++ compressed) ++ rest, h⟩ evs
      ⟨.fileRecord, rest, Spec.absorb h (frame op.CHUNK (header.bytes ++ compressed))⟩ := by
  have hframe : chunkFrame header compressed [] = frame op.CHUNK (header.bytes ++ compressed) := by
    rw [chunkFrame, List.append_nil]
  rw [← hframe] at hlen ⊢
  obtain ⟨s, phase, hfront, hs⟩ := yields_chunkHeader hemit hi.toChunkWhole
    (hw.mono (Nat.zero_le _)) hlen rest h
  have hrecords := hfront.trans (yields_enterChunk hi hw hmem hs)
  rw [Spec.absorb_absorb] at hrecords
  have hbytes : op.CHUNK :: le 8 (header.bytes ++ (compressed ++ [])).length ++ header.bytes ++
      compressed = chunkFrame header compressed [] := by
    simp [chunkFrame, frame]
  rw [hbytes] at hrecords
  exact hrecords

/-- **A chunk with a wrong checksum** stops a reader that checks it first, and none of its
records is yielded. -/
theorem fails_chunk (hemit : o.emitChunks = false) (hpre : o.prevalidateChunkCrcs = true)
    {padding out : Bytes} (hc : ChunkWhole Δ header compressed out)
    (h0 : header.uncompressedCrc ≠ 0) (hcrc : header.uncompressedCrc ≠ crc32 out)
    (hpad : Admits o padding.length) (hw : Admits o out.length) (hmem : out.length ≤ ISIZE_MAX)
    (hlen : (chunkFrame header compressed padding).length ≤ USIZE_MAX) (rest : Bytes)
    (h : Option Hasher) :
    Parses D Δ ⟨.fileRecord, chunkFrame header compressed padding ++ rest, h⟩ []
      (.failed (.badChunkCrc header.uncompressedCrc (crc32 out))) := by
  obtain ⟨s, phase, hfront, hs⟩ := yields_chunkHeader hemit hc hpad hlen rest h
  have hpre' : Spec.prevalidated o header = true := by
    simp [Spec.prevalidated, hpre, h0]
  simp only [Spec.enterChunk, hpre', hc.compressedSize, if_true] at hs
  refine hfront.parses (?_ : Parses D Δ s [] _)
  by_cases hname : header.compression = ""
  · rw [if_pos hname] at hs
    obtain rfl := hc.plain hname
    refine .again hs (.fail ?_)
    simp only [Spec.turn, Spec.validatingPlain]
    rw [show checkLen _ o.recordLengthLimit = _ from hw]
    simp only [Spec.need_of_le (s := ⟨_, compressed ++ (padding ++ rest), _⟩) (n := compressed.length)
      (by simp), List.take_left]
    rw [if_pos hcrc.symm]
  · rw [if_neg hname] at hs
    obtain ⟨hn, hunp⟩ := hc.unpacks hname
    refine .packed hs (by simp) hn.symm (by rw [List.take_left]; exact hunp) (.fail ?_)
    simp only [Spec.turn, Spec.validatingPacked]
    rw [show checkLen _ o.recordLengthLimit = _ from hw]
    simp only
    rw [if_neg (by omega), if_pos hcrc.symm]

/-! ## The ends of the sections -/

theorem yields_dataEnd {d : DataEnd} (hw : Admits o d.bytes.length)
    (hcrc : ∀ hasher, h = some hasher → d.dataSectionCrc = 0 ∨ d.dataSectionCrc = hasher.finalize)
    (rest : Bytes) : Yields Δ ⟨.fileRecord, frame op.DATA_END d.bytes ++ rest, h⟩
      [(op.DATA_END, d.bytes)]
      ⟨.fileRecord, rest, if o.validateSummarySectionCrc then some Hasher.new else none⟩ := by
  have hlen : (frame op.DATA_END d.bytes).length ≤ USIZE_MAX := by
    rw [length_frame]
    simp [DataEnd.bytes, USIZE_MAX]
  have hread : readLeFrom DataEnd.read d.bytes = .ok (d, ⟨[], d.bytes.length⟩) := by
    have h := (DataEnd.reads d).readLeFrom []
    rwa [List.append_nil] at h
  have hturn := turn_fileRecord (D := D) (o := o) rest h hlen
  rw [if_neg (by rintro ⟨hne, -⟩; cases hne), if_pos rfl] at hturn
  refine .again hturn (.record ?_ (.refl _))
  simp only [Spec.turn, Spec.dataEnd]
  rw [show checkLen _ o.recordLengthLimit = _ from hw]
  simp only [Spec.need_of_le (s := ⟨_, d.bytes ++ rest, none⟩) (n := d.bytes.length) (by simp),
    List.take_left, List.drop_left, hread]
  cases h with
  | none => rfl
  | some hasher =>
    simp only [Option.map_some]
    rw [if_neg ?_]
    rintro ⟨h0, hne⟩
    exact (hcrc hasher rfl).elim h0 fun heq => hne heq.symm

theorem parses_endMagic (h : Option Hasher) : Parses D Δ ⟨.endMagic, MAGIC, h⟩ [] .finished := by
  cases hskip : o.skipEndMagic with
  | true =>
    refine .done ?_
    simp only [Spec.turn, Spec.endMagic, hskip]
    rfl
  | false =>
    have hmagic : Spec.turn D o ⟨.endMagic, MAGIC, h⟩ =
        .again ⟨.afterEndMagic, [], Spec.absorb h MAGIC⟩ := by
      simp only [Spec.turn, Spec.endMagic, hskip]
      rfl
    refine .again hmagic ?_
    cases hcheck : o.checkFinishesAfterEndMagic with
    | true =>
      have heof : Spec.turn D o ⟨.afterEndMagic, [], Spec.absorb h MAGIC⟩ = .eof := by
        simp only [Spec.turn, Spec.afterEndMagic, hcheck]
        rfl
      have hfin : Spec.atEof o ⟨.afterEndMagic, [], Spec.absorb h MAGIC⟩ = .finished := by
        simp [Spec.atEof, Phase.afterEnd, Phase.inChunk]
      rw [← hfin]
      exact .eof heof
    | false =>
      refine .done ?_
      simp only [Spec.turn, Spec.afterEndMagic, hcheck]
      rfl

theorem yields_footer {f : Footer} (hw : Admits o f.bytes.length)
    (hcrc : ∀ hasher, h = some hasher → f.summaryCrc = 0 ∨ f.summaryCrc =
      crc32 (hasher.absorbed ++ (op.FOOTER :: le 8 f.bytes.length ++
        (u64 f.summaryStart ++ u64 f.summaryOffsetStart)))) (rest : Bytes) :
    Yields Δ ⟨.fileRecord, frame op.FOOTER f.bytes ++ rest, h⟩ [(op.FOOTER, f.bytes)]
      ⟨.endMagic, rest, none⟩ := by
  have hlen : (frame op.FOOTER f.bytes).length ≤ USIZE_MAX := by
    rw [length_frame]
    simp [Footer.bytes, USIZE_MAX]
  have hread : readLeFrom Footer.read f.bytes = .ok (f, ⟨[], f.bytes.length⟩) := by
    have h := (Footer.reads f).readLeFrom []
    rwa [List.append_nil] at h
  have hturn := turn_fileRecord (D := D) (o := o) rest h hlen
  rw [if_neg (by rintro ⟨hne, -⟩; cases hne), if_neg (by decide), if_pos rfl] at hturn
  have hfooter : Spec.turn D o ⟨.footer f.bytes.length (Spec.absorb h
      (op.FOOTER :: le 8 f.bytes.length)), f.bytes ++ rest, none⟩ =
        .record op.FOOTER f.bytes ⟨.endMagic, rest, none⟩ := by
    simp only [Spec.turn, Spec.footer]
    rw [show checkLen _ o.recordLengthLimit = _ from hw]
    simp only [Spec.need_of_le (s := ⟨_, f.bytes ++ rest, none⟩) (n := f.bytes.length) (by simp),
      List.take_left, hread, Spec.skip_append rfl]
    cases h with
    | none => rfl
    | some hasher =>
      have htake : f.bytes.take 16 = u64 f.summaryStart ++ u64 f.summaryOffsetStart := by
        rw [Footer.bytes]
        exact List.take_left' (by simp)
      simp only [Spec.absorb, Option.map_some, Option.map_none, htake]
      rw [if_neg (by simp [Footer.bytes]), if_neg ?_]
      rintro ⟨h0, hne⟩
      refine (hcrc hasher rfl).elim h0 fun heq => hne ?_
      rw [heq]
      simp [Hasher.finalize]
  exact .again hturn (.record hfooter (.refl _))

/-- **The footer and the end of the input**, with the right checksum or none. -/
theorem parses_footer_magic {f : Footer} (hw : Admits o f.bytes.length)
    (hcrc : ∀ hasher, h = some hasher → f.summaryCrc = 0 ∨ f.summaryCrc =
      crc32 (hasher.absorbed ++ (op.FOOTER :: le 8 f.bytes.length ++
        (u64 f.summaryStart ++ u64 f.summaryOffsetStart)))) :
    Parses D Δ ⟨.fileRecord, frame op.FOOTER f.bytes ++ MAGIC, h⟩ [(op.FOOTER, f.bytes)]
      .finished :=
  (yields_footer hw hcrc MAGIC).parses (parses_endMagic none)

end
end Mcap

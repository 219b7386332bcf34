import Mcap.ReaderSim
import Mcap.Driver
import Mcap.StoredLz4
import Mathlib.Logic.Relation

/-! # When `next_event` returns

The reader does arithmetic on lengths that the input announces, and trusts a
decompressor with the sizes of a chunk.  `Fits` says of a state what the next turn
of the loop relies on: an announced length that can be added to, a record that
ends within its uncompressed chunk, a decompressed buffer that can grow, and
decompressor calls that write no more than the chunk has left and get on.

`turn_ok` is the step lemma: under `Fits` a turn neither panics nor hangs, keeps
the invariant `Sound`, and if it goes round again, something got smaller.
`returns_of_fits` is the run lemma: if every state on the way fits, every call
returns.  The conditions are not checked by the source, and each of them is met
by some input only: `9 + len` overflows on an announced length near `2 ^ 64`.
-/
namespace Mcap
open LinearReader (opcodeAndLen MIN_CHUNK_HEADER_SIZE)
open Relation (ReflTransGen)

variable {δ : Type} (D : Decompressor δ)

/-! ## Decompressing -/

/-- The loop of `decompress_inner` calls the decompressor in this state. -/
structure Calling (s : Inflate δ) : Prop where
  input : D.nextReadSize s.decompressor ≤ s.srcBuf.len
  room : s.destBuf.unwritten.length ≠ 0
  remaining : s.uncompressedRemaining ≠ 0

/-- The source slice of the call. -/
def Inflate.src (s : Inflate δ) : Bytes :=
  s.srcBuf.unread.take (min s.srcBuf.len s.compressedRemaining)

/-- One pass of the loop. -/
inductive InflateStep : Inflate δ → Inflate δ → Prop
  | call {s d res srcBuf destBuf} : Calling D s →
      D.decompress s.decompressor s.src s.destBuf.unwritten.length = (d, .ok res) →
      s.srcBuf.markRead res.consumed = some srcBuf →
      (s.destBuf.fill res.wrote).markWritten res.wrote.length = some destBuf →
      InflateStep s
        { decompressor := d
          srcBuf
          destBuf
          compressedRemaining := s.compressedRemaining - res.consumed
          uncompressedRemaining := s.uncompressedRemaining - res.wrote.length }

/-- **A decompressor call fits**: it writes no more than the chunk has left. -/
def CallFits (s : Inflate δ) : Prop :=
  ∀ d res, D.decompress s.decompressor s.src s.destBuf.unwritten.length = (d, .ok res) →
    res.wrote.length ≤ s.uncompressedRemaining

/-- The calls the loop makes from here come to an end, and each of them fits. -/
structure InflateFits (s : Inflate δ) : Prop where
  ends : Acc (fun s₂ s₁ => InflateStep D s₁ s₂) s
  fits : ∀ s', ReflTransGen (InflateStep D) s s' → Calling D s' → CallFits D s'

/-- What a pass of the loop leaves alone or makes smaller. -/
structure Shrunk (s s' : Inflate δ) : Prop where
  src : s'.srcBuf.len ≤ s.srcBuf.len
  compressed : s'.compressedRemaining ≤ s.compressedRemaining
  size : s'.destBuf.data.length = s.destBuf.data.length
  start : s'.destBuf.start = s.destBuf.start

variable {D} {s : Inflate δ}

theorem Shrunk.refl (s : Inflate δ) : Shrunk s s :=
  ⟨Nat.le_refl _, Nat.le_refl _, rfl, rfl⟩

theorem Shrunk.trans {s₁ s₂ s₃ : Inflate δ} (h₁ : Shrunk s₁ s₂) (h₂ : Shrunk s₂ s₃) :
    Shrunk s₁ s₃ :=
  ⟨h₂.src.trans h₁.src, h₂.compressed.trans h₁.compressed, h₂.size.trans h₁.size,
    h₂.start.trans h₁.start⟩

theorem decompressLoop_calling (hc : Calling D s) (fuel : Nat) :
    decompressLoop D (fuel + 1) s =
      match D.decompress s.decompressor s.src s.destBuf.unwritten.length with
      | (d, .error e) => (.err e, { s with decompressor := d })
      | (d, .ok res) =>
          match s.srcBuf.markRead res.consumed,
            (s.destBuf.fill res.wrote).markWritten res.wrote.length with
          | some srcBuf, some destBuf =>
              if res.wrote.length > s.uncompressedRemaining then (.panic, s)
              else decompressLoop D fuel
                { decompressor := d
                  srcBuf
                  destBuf
                  compressedRemaining := s.compressedRemaining - res.consumed
                  uncompressedRemaining := s.uncompressedRemaining - res.wrote.length }
          | _, _ => (.panic, s) := by
  have hi := hc.input
  rw [decompressLoop, if_neg (by omega), if_neg hc.room, if_neg hc.remaining]
  rfl

theorem inflate_step (hc : Calling D s) (hf : CallFits D s) :
    (∃ d e, ∀ fuel, decompressLoop D (fuel + 1) s = (.err e, { s with decompressor := d })) ∨
    ∃ s', InflateStep D s s' ∧ Shrunk s s' ∧
      ∀ fuel, decompressLoop D (fuel + 1) s = decompressLoop D fuel s' := by
  rcases hd : D.decompress s.decompressor s.src s.destBuf.unwritten.length with ⟨d, e | res⟩
  · left
    refine ⟨d, e, fun fuel => ?_⟩
    rw [decompressLoop_calling hc, hd]
  · right
    have hwrote := hf d res hd
    have hconsumed := D.consumed_le hd
    have hroom := D.wrote_le hd
    have hsrc : s.src.length ≤ s.srcBuf.len := by
      rw [Inflate.src, List.length_take, RwBuf.length_unread]
      omega
    obtain ⟨srcBuf, hread, hsv, -⟩ :=
      RwBuf.markRead_of_le (b := s.srcBuf) (n := res.consumed) (by omega)
    obtain ⟨destBuf, hwritten, -, hstart, -, hsize⟩ := RwBuf.fill_of_le hroom
    have hlen : srcBuf.len = s.srcBuf.len - res.consumed := by
      rw [hsv.len, List.length_drop, RwBuf.length_unread]
    refine ⟨_, .call hc hd hread hwritten, ⟨?_, Nat.sub_le _ _, hsize, hstart⟩, fun fuel => ?_⟩
    · show srcBuf.len ≤ _
      omega
    · rw [decompressLoop_calling hc, hd]
      simp only [hread, hwritten]
      rw [if_neg (by omega)]

/-- **The loop ends**, if its calls come to an end and every one of them fits. -/
theorem inflate_ends (hf : InflateFits D s) :
    ∃ N res s', (∀ fuel, N ≤ fuel → decompressLoop D fuel s = (res, s')) ∧
      Shrunk s s' ∧ res ≠ .panic ∧ res ≠ .spin ∧
      (res = .done → s'.destBuf.unwritten.length = 0 ∧
        D.nextReadSize s'.decompressor ≤ s'.srcBuf.len ∧
        ReflTransGen (InflateStep D) s s') := by
  obtain ⟨hends, hfits⟩ := hf
  induction hends with
  | intro s _ ih =>
    by_cases hneed : s.srcBuf.len < D.nextReadSize s.decompressor
    · refine ⟨1, .need (D.nextReadSize s.decompressor - s.srcBuf.len), s, ?_, .refl s, by simp,
        by simp, by simp⟩
      rintro (_ | fuel) hfuel
      · omega
      · rw [decompressLoop, if_pos hneed]
    by_cases hfull : s.destBuf.unwritten.length = 0
    · refine ⟨1, .done, s, ?_, .refl s, by simp, by simp, fun _ => ⟨hfull, by omega, .refl⟩⟩
      rintro (_ | fuel) hfuel
      · omega
      · rw [decompressLoop, if_neg hneed, if_pos hfull]
    by_cases hrem : s.uncompressedRemaining = 0
    · refine ⟨1, .err .unexpectedEoc, s, ?_, .refl s, by simp, by simp, by simp⟩
      rintro (_ | fuel) hfuel
      · omega
      · rw [decompressLoop, if_neg hneed, if_neg hfull, if_pos hrem]
    have hc : Calling D s := ⟨by omega, hfull, hrem⟩
    rcases inflate_step hc (hfits s .refl hc) with ⟨d, e, herr⟩ | ⟨s₁, hstep, hsh, hloop⟩
    · refine ⟨1, .err e, { s with decompressor := d }, ?_,
        ⟨Nat.le_refl _, Nat.le_refl _, rfl, rfl⟩, by simp, by simp, by simp⟩
      rintro (_ | fuel) hfuel
      · omega
      · exact herr fuel
    · obtain ⟨N, res, s', hrun, hsh', hp, hs, hdone⟩ :=
        ih s₁ hstep fun s' hr => hfits s' (.head hstep hr)
      refine ⟨N + 1, res, s', ?_, hsh.trans hsh', hp, hs,
        fun h => ⟨(hdone h).1, (hdone h).2.1, .head hstep (hdone h).2.2⟩⟩
      rintro (_ | fuel) hfuel
      · omega
      · rw [hloop, hrun fuel (by omega)]

/-! ## What a state relies on -/

variable (D)

/-- The decompressed buffer can grow to `n` bytes. -/
def GrowFits (n : Nat) (s : Inflate δ) : Prop :=
  s.destBuf.len < n → s.destBuf.start + n ≤ ISIZE_MAX ∧
    ∀ b, s.destBuf.reserveExact (n - s.destBuf.len) = some b → InflateFits D { s with destBuf := b }

/-- `decompress_inner` has brought the buffer to `n` bytes. -/
def Grown (n : Nat) (s s' : Inflate δ) : Prop :=
  (n ≤ s.destBuf.len ∧ s' = s) ∨
    ∃ b, s.destBuf.reserveExact (n - s.destBuf.len) = some b ∧
      ReflTransGen (InflateStep D) { s with destBuf := b } s' ∧
      s'.destBuf.unwritten.length = 0 ∧ D.nextReadSize s'.decompressor ≤ s'.srcBuf.len

/-- The record that `bytes` starts with announces a length that can be added to, if
the length is within the limit. -/
def AnnouncedFits (o : LinearReaderOptions) (bytes : Bytes) : Prop :=
  ∀ len, checkLen (opcodeAndLen (bytes.take OPCODE_LEN_SIZE)).2 o.recordLengthLimit = some len →
    OPCODE_LEN_SIZE + len ≤ USIZE_MAX

/-- The record that `bytes` starts with ends within `remaining` bytes. -/
def WithinChunk (o : LinearReaderOptions) (bytes : Bytes) (remaining : Nat) : Prop :=
  ∀ len, checkLen (opcodeAndLen (bytes.take OPCODE_LEN_SIZE)).2 o.recordLengthLimit = some len →
    OPCODE_LEN_SIZE + len ≤ bytes.length → OPCODE_LEN_SIZE + len ≤ remaining

namespace LinearReader

/-- A record of a compressed chunk fits: its header can be decompressed, the length
in it can be added to, and the record can be decompressed. -/
def PackedFits (r : LinearReader δ) (st : ChunkState δ) (d : δ) : Prop :=
  GrowFits D OPCODE_LEN_SIZE (r.inflate st d) ∧
    ∀ s, Grown D OPCODE_LEN_SIZE (r.inflate st d) s →
      AnnouncedFits r.options s.destBuf.unread ∧
      ∀ len, checkLen (opcodeAndLen (s.destBuf.unread.take OPCODE_LEN_SIZE)).2
        r.options.recordLengthLimit = some len → GrowFits D (OPCODE_LEN_SIZE + len) s

/-- The record at the front of `bytes` is handed out whole, and not looked into. -/
def HandedOut (o : LinearReaderOptions) (bytes : Bytes) : Prop :=
  let opcode := (opcodeAndLen (bytes.take OPCODE_LEN_SIZE)).1
  ¬ (opcode = op.CHUNK ∧ (!o.emitChunks) = true) ∧ opcode ≠ op.DATA_END ∧ opcode ≠ op.FOOTER

/-- **What the next turn relies on.** -/
def Fits (r : LinearReader δ) : Prop :=
  match r.currentlyReading with
  | .fileRecord => OPCODE_LEN_SIZE ≤ r.fileData.len → HandedOut r.options r.fileData.unread →
      AnnouncedFits r.options r.fileData.unread
  | .validatingChunkCrc => ∀ st d n, r.chunkState = some st → st.decompressor = some d →
      checkLen st.uncompressedLen r.options.recordLengthLimit = some n →
      GrowFits D n (r.inflate st d)
  | .chunkRecord => ∀ st, r.chunkState = some st →
      match st.decompressor with
      | none => st.compressedRemaining ≠ 0 → OPCODE_LEN_SIZE ≤ r.fileData.len →
          AnnouncedFits r.options r.fileData.unread ∧
            WithinChunk r.options r.fileData.unread st.compressedRemaining
      | some d =>
          ¬ (st.uncompressedRemaining = 0 ∧ r.clearDecompressed.decompressedContent.len = 0) →
          r.clearDecompressed.PackedFits D st d
  | _ => True

end LinearReader

variable {D}

/-- The states inside a chunk. -/
def CurrentlyReading.inChunk : CurrentlyReading → Bool
  | .validatingChunkCrc | .chunkRecord | .paddingAfterChunk => true
  | _ => false

/-- States that follow each other within a call, in decreasing order. -/
def CurrentlyReading.rank : CurrentlyReading → Nat
  | .startMagic => 7
  | .chunkHeader _ => 6
  | .validatingChunkCrc => 5
  | .chunkRecord => 4
  | .paddingAfterChunk => 3
  | .dataEnd .. => 3
  | .fileRecord => 2
  | .footer .. => 2
  | .endMagic => 1
  | .afterEndMagic => 0

namespace LinearReader

/-- **The invariant**: the chunk state is there inside a chunk, and the lengths of a
chunk came from one 64-bit length. -/
structure Sound (r : LinearReader δ) : Prop where
  chunk : r.currentlyReading.inChunk = true → r.chunkState ≠ none
  total : ∀ st, r.chunkState = some st →
    st.paddingAfterCompressedData + st.compressedRemaining ≤ USIZE_MAX
  header : ∀ len, r.currentlyReading = .chunkHeader len → len ≤ USIZE_MAX

/-- What is left to decompress before the CRC of a chunk can be checked. -/
def unvalidated (r : LinearReader δ) : Nat :=
  match r.currentlyReading, r.chunkState with
  | .validatingChunkCrc, some st => st.uncompressedLen - r.decompressedContent.len
  | _, _ => 0

/-- Fewer bytes in the buffer, or a later state, or less left to validate. -/
def Less (r' r : LinearReader δ) : Prop :=
  Prod.Lex (· < ·) (Prod.Lex (· < ·) (· < ·))
    (r'.fileData.len, r'.currentlyReading.rank, r'.unvalidated)
    (r.fileData.len, r.currentlyReading.rank, r.unvalidated)

theorem less_wf : WellFounded (Less (δ := δ)) :=
  InvImage.wf (fun r : LinearReader δ => (r.fileData.len, r.currentlyReading.rank, r.unvalidated))
    (WellFounded.prod_lex Nat.lt_wfRel.wf (WellFounded.prod_lex Nat.lt_wfRel.wf Nat.lt_wfRel.wf))

variable {r r' : LinearReader δ} {q : LinearReader δ} {st : ChunkState δ}

theorem less_of_len (h : r'.fileData.len < r.fileData.len) : Less r' r := Prod.Lex.left _ _ h

theorem less_of_rank (hb : r'.fileData.len ≤ r.fileData.len)
    (hr : r'.currentlyReading.rank < r.currentlyReading.rank) : Less r' r := by
  rcases Nat.lt_or_eq_of_le hb with hlt | heq
  · exact less_of_len hlt
  · unfold Less
    rw [heq]
    exact Prod.Lex.right _ (Prod.Lex.left _ _ hr)

theorem less_of_unvalidated (hb : r'.fileData.len ≤ r.fileData.len)
    (hr : r'.currentlyReading = r.currentlyReading) (hu : r'.unvalidated < r.unvalidated) :
    Less r' r := by
  rcases Nat.lt_or_eq_of_le hb with hlt | heq
  · exact less_of_len hlt
  · unfold Less
    rw [heq, hr]
    exact Prod.Lex.right _ (Prod.Lex.right _ hu)

/-- A turn of `r` that neither panics nor hangs, keeps the invariant, and goes round
with something smaller only. -/
def Good (r : LinearReader δ) : Turn δ → Prop
  | .again r' => Sound r' ∧ Less r' r ∧ r'.atEof = r.atEof
  | .ret r' _ => Sound r'
  | .panic => False
  | .spin => False

theorem good_load (hs : Sound r) {n : Nat} {k : Bytes → Turn δ}
    (h : n ≤ r.fileData.len → Good r (k (r.fileData.unread.take n))) : Good r (r.load n k) := by
  unfold load
  split
  · exact hs
  · exact h (by omega)

theorem good_consume (hs : Sound r) {n : Nat} {k : Bytes → LinearReader δ → Turn δ}
    (h : ∀ fileData : RwBuf, n ≤ r.fileData.len → fileData.len = r.fileData.len - n →
      Good r (k (r.fileData.unread.take n) { r with fileData })) : Good r (r.consume n k) := by
  unfold consume
  split
  · exact hs
  · rename_i hge
    obtain ⟨b, hb, hv, -⟩ := RwBuf.consume_of_le (b := r.fileData) (n := n) (by omega)
    rw [hb]
    refine h b (by omega) ?_
    rw [hv.len, List.length_drop, RwBuf.length_unread]

/-! ## Outside compressed chunks -/

theorem good_startMagic (hs : Sound r) (hc : r.currentlyReading = .startMagic) :
    Good r r.startMagic := by
  have hnext : ∀ {b : RwBuf}, b.len ≤ r.fileData.len →
      Good r (.again { r with fileData := b, currentlyReading := .fileRecord }) := fun hb =>
    ⟨⟨fun h => (by cases h), hs.total, fun _ h => (by cases h)⟩,
      less_of_rank hb (by simp [hc, CurrentlyReading.rank]), rfl⟩
  unfold startMagic
  split
  · exact hnext (Nat.le_refl _)
  · refine good_consume hs fun fileData hle hlen => ?_
    split
    · exact ⟨hs.chunk, hs.total, hs.header⟩
    · exact hnext (show fileData.len ≤ _ by omega)

theorem good_fileRecord (hs : Sound r)
    (hf : OPCODE_LEN_SIZE ≤ r.fileData.len → HandedOut r.options r.fileData.unread →
      AnnouncedFits r.options r.fileData.unread) :
    Good r r.fileRecord := by
  unfold fileRecord
  refine good_load hs fun hlen => ?_
  have hfit := hf hlen
  have hle := opcodeAndLen_le r.fileData.unread
  unfold HandedOut AnnouncedFits at hfit
  rcases hol : opcodeAndLen (r.fileData.unread.take OPCODE_LEN_SIZE) with ⟨opcode, len⟩
  rw [hol] at hfit hle
  simp only at hfit hle ⊢
  have hless : ∀ {b : RwBuf} {state : CurrentlyReading}, b.len = r.fileData.len - OPCODE_LEN_SIZE →
      Less { r with fileData := b, currentlyReading := state } r := fun {b} {state} hb =>
    less_of_len (show b.len < r.fileData.len by simp only [OPCODE_LEN_SIZE] at *; omega)
  have hmark : ∀ b : RwBuf, b.len = r.fileData.len →
      ∃ b', b.markRead OPCODE_LEN_SIZE = some b' ∧ b'.len = r.fileData.len - OPCODE_LEN_SIZE := by
    intro b hb
    obtain ⟨b', hb', hv, -⟩ := RwBuf.markRead_of_le (b := b) (n := OPCODE_LEN_SIZE) (by omega)
    exact ⟨b', hb', by rw [hv.len, List.length_drop, RwBuf.length_unread, hb]⟩
  split
  · obtain ⟨b, hb, hl⟩ := hmark r.fileData rfl
    rw [hb]
    refine ⟨⟨fun h => (by cases h), hs.total, ?_⟩, hless hl, rfl⟩
    rintro len' h
    cases h
    exact hle
  rename_i hchunk
  split
  · obtain ⟨b, hb, hl⟩ := hmark (r.fileData.setHasher none) (RwBuf.len_setHasher _ _)
    rw [hb]
    exact ⟨⟨fun h => (by cases h), hs.total, fun _ h => (by cases h)⟩, hless hl, rfl⟩
  rename_i hend
  split
  · obtain ⟨b, hb, hl⟩ := hmark r.fileData rfl
    rw [hb]
    exact ⟨⟨fun h => (by cases h), hs.total, fun _ h => (by cases h)⟩, hless hl, rfl⟩
  rename_i hfoot
  cases hcheck : checkLen len r.options.recordLengthLimit with
  | none => exact ⟨hs.chunk, hs.total, hs.header⟩
  | some n =>
    have hn := hfit ⟨hchunk, hend, hfoot⟩ n hcheck
    simp only
    rw [if_neg (by omega)]
    exact good_consume hs fun fileData _ _ => ⟨hs.chunk, hs.total, hs.header⟩

theorem good_dataEnd (hs : Sound r) (len : Nat) (calculated : Option UInt32) :
    Good r (r.dataEnd len calculated) := by
  unfold dataEnd
  cases hcheck : checkLen len r.options.recordLengthLimit with
  | none => exact hs
  | some n =>
    refine good_load hs fun hlen => ?_
    have hyield : Good r (r.dataEndRecord n) := by
      unfold dataEndRecord
      obtain ⟨b, hb⟩ : ∃ b, (if r.options.validateSummarySectionCrc then
        r.fileData.setHasher (some Hasher.new) else r.fileData) = b := ⟨_, rfl⟩
      have hblen : b.len = r.fileData.len := by
        rw [← hb]
        split
        · exact RwBuf.len_setHasher _ _
        · rfl
      obtain ⟨b', hb', -⟩ := RwBuf.consumeWithoutHashing_of_le (b := b) (n := n) (by omega)
      simp only [hb, hb']
      exact ⟨fun h => (by cases h), hs.total, fun _ h => (by cases h)⟩
    rcases readLeFrom DataEnd.read _ with e | ⟨rec, cur⟩
    · exact hs
    rcases calculated with _ | calculated
    · exact hyield
    · simp only
      split
      · exact hs
      · exact hyield

theorem good_footer (hs : Sound r) (len : Nat) (hasher : Option Hasher) :
    Good r (r.footer len hasher) := by
  unfold footer
  cases hcheck : checkLen len r.options.recordLengthLimit with
  | none => exact hs
  | some n =>
    refine good_consume hs fun fileData hlen _ => ?_
    obtain ⟨herr, -⟩ := readLeFrom_takes Footer.takes_read (r.fileData.unread.take n)
    rcases hread : readLeFrom Footer.read (r.fileData.unread.take n) with e | ⟨rec, cur⟩
    · exact ⟨hs.chunk, hs.total, hs.header⟩
    -- a footer that parses has its twenty bytes, so the slice of sixteen is in range
    have h20 : ¬ (r.fileData.unread.take n).length < 16 := by
      intro hlt
      obtain ⟨e, he⟩ := herr (by omega)
      rw [he] at hread
      cases hread
    have hyield : Good r (leave { r with fileData, currentlyReading := .endMagic }
        (some (.ok (.record op.FOOTER (r.fileData.unread.take n))))) :=
      ⟨fun h => (by cases h), hs.total, fun _ h => (by cases h)⟩
    simp only
    rcases hasher with _ | hasher
    · exact hyield
    · simp only [if_neg h20]
      split
      · exact ⟨hs.chunk, hs.total, hs.header⟩
      · exact hyield

theorem good_chunkHeader (hs : Sound r) {len : Nat} (hc : r.currentlyReading = .chunkHeader len) :
    Good r (r.chunkHeader D len) := by
  have hlen := hs.header len hc
  unfold chunkHeader
  refine good_load hs fun _ => good_consume hs fun fileData hle hl => ?_
  generalize MIN_CHUNK_HEADER_SIZE +
    ofLe ((List.drop 28 (r.fileData.unread.take MIN_CHUNK_HEADER_SIZE)).take 4) = headerLen at *
  have hsound : ∀ {r' : LinearReader δ}, r'.currentlyReading = r.currentlyReading →
      r'.chunkState = r.chunkState → Sound r' := fun h1 h2 =>
    ⟨by rw [h1, h2]; exact hs.chunk, by rw [h2]; exact hs.total, by rw [h1]; exact hs.header⟩
  rcases readLeFrom ChunkHeader.read _ with e | ⟨header, cur⟩
  · exact hsound rfl rfl
  simp only
  rcases getDecompressor D r.decompressors header.compression with ⟨e | decompressor, ds⟩
  · exact hsound rfl rfl
  simp only
  split
  · exact hsound rfl rfl
  split
  · exact hsound rfl rfl
  cases hcheck : checkLen (len - headerLen - header.compressedSize.toNat)
      r.options.recordLengthLimit with
  | none => exact hsound rfl rfl
  | some padding =>
    have hpadding := checkLen_eq hcheck
    refine ⟨⟨fun _ => by simp, ?_, ?_⟩, less_of_rank ?_ ?_, rfl⟩
    · rintro st h
      cases h
      show padding + header.compressedSize.toNat ≤ USIZE_MAX
      omega
    · intro len' h
      simp only at h
      split at h <;> cases h
    · show fileData.len ≤ r.fileData.len
      omega
    · simp only [hc]
      split <;> simp [CurrentlyReading.rank]

theorem good_endMagic (hs : Sound r) (hc : r.currentlyReading = .endMagic) : Good r r.endMagic := by
  unfold endMagic
  split
  · exact hs
  · refine good_consume hs fun fileData _ hlen => ?_
    split
    · refine ⟨⟨fun h => (by cases h), hs.total, fun _ h => (by cases h)⟩, less_of_rank ?_ ?_, rfl⟩
      · show fileData.len ≤ r.fileData.len
        omega
      · simp [hc, CurrentlyReading.rank]
    · exact ⟨hs.chunk, hs.total, hs.header⟩

theorem good_afterEndMagic (hs : Sound r) : Good r r.afterEndMagic := by
  unfold afterEndMagic
  split
  · split
    · exact hs
    split
    · exact hs
    · exact hs
  · exact hs

theorem good_checkChunkCrc (hs : Sound r) (hlen : r.fileData.len ≤ q.fileData.len)
    (hc : q.currentlyReading = .paddingAfterChunk) (he : r.atEof = q.atEof) (crc : UInt32)
    (hasher : Option Hasher) : Good q (r.checkChunkCrc crc hasher) := by
  have hnext : Good q (.again { r with chunkState := none, currentlyReading := .fileRecord }) :=
    ⟨⟨fun h => (by cases h), fun _ h => (by cases h), fun _ h => (by cases h)⟩,
      less_of_rank hlen (by simp [hc, CurrentlyReading.rank]), he⟩
  unfold checkChunkCrc
  rcases hasher with _ | hasher
  · exact hnext
  · simp only
    split
    · exact hs
    · exact hnext

theorem good_paddingAfterChunk (hs : Sound r) (hc : r.currentlyReading = .paddingAfterChunk) :
    Good r (r.paddingAfterChunk D) := by
  obtain ⟨st, hst⟩ := Option.ne_none_iff_exists'.mp (hs.chunk (by rw [hc]; rfl))
  have htotal := hs.total st hst
  unfold paddingAfterChunk
  simp only [hst]
  refine good_consume hs fun fileData _ hlen => ?_
  have hsound : ∀ {r' : LinearReader δ} {st' : ChunkState δ},
      r'.currentlyReading = .paddingAfterChunk → r'.chunkState = some st' →
      st'.paddingAfterCompressedData = st.paddingAfterCompressedData →
      st'.compressedRemaining = st.compressedRemaining → Sound r' := by
    intro r' st' h1 h2 h3 h4
    refine ⟨fun _ => by rw [h2]; simp, ?_, ?_⟩
    · intro st'' h
      rw [h2] at h
      cases h
      omega
    · intro len h
      rw [h1] at h
      cases h
  rcases hd : st.decompressor with _ | d
  · simp only
    refine good_checkChunkCrc ?_ ?_ hc ?_ _ _
    · exact hsound hc rfl rfl rfl
    · show fileData.len ≤ r.fileData.len
      omega
    · rfl
  · simp only
    rcases D.reset d with ⟨d', e | _⟩
    · exact hsound hc rfl rfl rfl
    · refine good_checkChunkCrc ?_ ?_ hc ?_ _ _
      · exact hsound hc rfl rfl rfl
      · show fileData.len ≤ r.fileData.len
        omega
      · rfl

/-! ## In a chunk -/

theorem good_plainChunkRecord (hs : Sound r) (hc : r.currentlyReading = .chunkRecord)
    (hst : r.chunkState = some st)
    (hf : st.compressedRemaining ≠ 0 → OPCODE_LEN_SIZE ≤ r.fileData.len →
      AnnouncedFits r.options r.fileData.unread ∧
        WithinChunk r.options r.fileData.unread st.compressedRemaining) :
    Good r (r.plainChunkRecord st) := by
  have htotal := hs.total st hst
  unfold plainChunkRecord
  by_cases h0 : st.compressedRemaining = 0
  · rw [if_pos h0]
    refine ⟨⟨fun _ => ?_, hs.total, fun _ h => (by cases h)⟩, less_of_rank (Nat.le_refl _) ?_, rfl⟩
    · show r.chunkState ≠ none
      rw [hst]
      simp
    · simp [hc, CurrentlyReading.rank]
  rw [if_neg h0]
  refine good_load hs fun hlen => ?_
  obtain ⟨hann, hin⟩ := hf h0 hlen
  unfold AnnouncedFits at hann
  unfold WithinChunk at hin
  rcases hol : opcodeAndLen (r.fileData.unread.take OPCODE_LEN_SIZE) with ⟨opcode, len⟩
  rw [hol] at hann hin
  simp only at hann hin ⊢
  cases hcheck : checkLen len r.options.recordLengthLimit with
  | none => exact hs
  | some n =>
    have hn := hann n hcheck
    simp only
    rw [if_neg (by omega)]
    refine good_consume hs fun fileData hle _ => ?_
    have hrem := hin n hcheck (by rw [RwBuf.length_unread]; exact hle)
    rw [if_neg (by omega)]
    refine ⟨fun _ => by simp, ?_, fun len h => ?_⟩
    · rintro st' h
      cases h
      show st.paddingAfterCompressedData + (st.compressedRemaining - _) ≤ _
      omega
    · have h' : r.currentlyReading = .chunkHeader len := h
      rw [hc] at h'
      cases h'

/-- **`decompress!` under `GrowFits`**: it goes on with `n` bytes in the buffer, or
returns an event. -/
theorem decompress_ok {d : δ} {n : Nat} (hf : GrowFits D n (r.inflate st d)) :
    ∃ N r' st' d', (r'.options = r.options ∧ r'.atEof = r.atEof ∧
        r'.currentlyReading = r.currentlyReading ∧ r'.chunkState = some st') ∧
      r'.fileData.len ≤ r.fileData.len ∧ st'.compressedRemaining ≤ st.compressedRemaining ∧
      st'.paddingAfterCompressedData = st.paddingAfterCompressedData ∧
      st'.uncompressedLen = st.uncompressedLen ∧
      (((∀ fuel k, N ≤ fuel → r.decompress D fuel st d n k = k r' st' d') ∧
          n ≤ r'.decompressedContent.len ∧ Grown D n (r.inflate st d) (r'.inflate st' d')) ∨
        ∃ ev, ∀ fuel k, N ≤ fuel → r.decompress D fuel st d n k = .ret r' ev) := by
  have hkey : ∃ N res s', (∀ fuel, N ≤ fuel → decompressInner D fuel n (r.inflate st d) = (res, s')) ∧
      s'.srcBuf.len ≤ r.fileData.len ∧ s'.compressedRemaining ≤ st.compressedRemaining ∧
      res ≠ .panic ∧ res ≠ .spin ∧
      (res = .done → n ≤ s'.destBuf.len ∧ Grown D n (r.inflate st d) s') := by
    by_cases hn : n - r.decompressedContent.len = 0
    · refine ⟨0, .done, r.inflate st d, fun fuel _ => if_pos hn, Nat.le_refl _, Nat.le_refl _,
        by simp, by simp, fun _ => ⟨?_, .inl ⟨?_, rfl⟩⟩⟩
      · show n ≤ r.decompressedContent.len
        omega
      · show n ≤ r.decompressedContent.len
        omega
    · obtain ⟨hroom, hfit⟩ := hf (show r.decompressedContent.len < n by omega)
      have hend := r.decompressedContent.end_eq
      have hroom' : r.decompressedContent.start + n ≤ ISIZE_MAX := hroom
      obtain ⟨b, hb, -, hstart, -, hsize⟩ :=
        RwBuf.reserveExact_of_le (b := r.decompressedContent) (n := n - r.decompressedContent.len)
          (by omega)
      obtain ⟨N, res, s', hrun, hsh, hp, hsp, hdone⟩ := inflate_ends (hfit b hb)
      refine ⟨N, res, s', fun fuel hfuel => ?_, hsh.src, hsh.compressed, hp, hsp, fun h => ?_⟩
      · have hinner : decompressInner D fuel n (r.inflate st d) =
            decompressLoop D fuel { r.inflate st d with destBuf := b } := by
          rw [decompressInner, if_neg (show ¬ n - (r.inflate st d).destBuf.len = 0 from hn),
            show (r.inflate st d).destBuf.reserveExact (n - (r.inflate st d).destBuf.len) = some b
              from hb]
        rw [hinner]
        exact hrun fuel hfuel
      · obtain ⟨hfull, hneed, hreach⟩ := hdone h
        refine ⟨?_, .inr ⟨b, hb, hreach, hfull, hneed⟩⟩
        have h1 := hsh.size
        have h2 := hsh.start
        have h3 := s'.destBuf.end_eq
        have h4 := s'.destBuf.end_le
        simp only [RwBuf.unwritten, List.length_drop] at hfull
        simp only at h1 h2
        omega
  obtain ⟨N, res, s', hrun, hsrc, hcomp, hp, hsp, hdone⟩ := hkey
  refine ⟨N, { r with
      fileData := s'.srcBuf
      decompressedContent := s'.destBuf
      chunkState := some { st with
        decompressor := some s'.decompressor
        compressedRemaining := s'.compressedRemaining
        uncompressedRemaining := s'.uncompressedRemaining } },
    _, s'.decompressor, ⟨rfl, rfl, rfl, rfl⟩, hsrc, hcomp, rfl, rfl, ?_⟩
  cases res with
  | done =>
    obtain ⟨hn, hg⟩ := hdone rfl
    refine .inl ⟨fun fuel k hfuel => ?_, hn, hg⟩
    simp only [decompress, hrun fuel hfuel]
    rw [if_neg (by omega)]
  | need m =>
    refine .inr ⟨some (.ok (.readRequest m)), fun fuel k hfuel => ?_⟩
    simp only [decompress, hrun fuel hfuel]
  | err e =>
    refine .inr ⟨some (.error e), fun fuel k hfuel => ?_⟩
    simp only [decompress, hrun fuel hfuel]
  | panic => exact absurd rfl hp
  | spin => exact absurd rfl hsp

theorem good_validatingChunkCrc (hs : Sound r) (hc : r.currentlyReading = .validatingChunkCrc)
    (hf : ∀ st d n, r.chunkState = some st → st.decompressor = some d →
      checkLen st.uncompressedLen r.options.recordLengthLimit = some n →
      GrowFits D n (r.inflate st d)) :
    ∃ N T, (∀ fuel, N ≤ fuel → r.validatingChunkCrc D fuel = T) ∧ Good r T := by
  obtain ⟨st, hst⟩ := Option.ne_none_iff_exists'.mp (hs.chunk (by rw [hc]; rfl))
  have htotal := hs.total st hst
  have hnext : Good r (.again { r with currentlyReading := .chunkRecord }) := by
    refine ⟨⟨fun _ => ?_, hs.total, fun _ h => (by cases h)⟩, less_of_rank (Nat.le_refl _) ?_, rfl⟩
    · show r.chunkState ≠ none
      rw [hst]
      simp
    · simp [hc, CurrentlyReading.rank]
  rcases hd : st.decompressor with _ | d
  · refine ⟨0, r.validatingChunkCrc D 0, fun fuel _ => ?_, ?_⟩
    · simp only [validatingChunkCrc, hst, hd]
    · simp only [validatingChunkCrc, hst, hd]
      cases checkLen st.compressedRemaining r.options.recordLengthLimit with
      | none => exact hs
      | some n =>
        refine good_load hs fun _ => ?_
        split
        · exact hs
        · exact hst ▸ hnext
  · cases hcheck : checkLen st.uncompressedLen r.options.recordLengthLimit with
    | none =>
      refine ⟨0, r.fail (.chunkTooLarge st.uncompressedLen), fun fuel _ => ?_, hs⟩
      simp only [validatingChunkCrc, hst, hd, hcheck]
    | some n =>
      have hturn : ∀ fuel, r.validatingChunkCrc D fuel =
          if r.decompressedContent.len ≥ n then
            if crc32 r.decompressedContent.unread ≠ st.crc then
              r.fail (.badChunkCrc st.crc (crc32 r.decompressedContent.unread))
            else .again { r with currentlyReading := .chunkRecord }
          else r.decompress D fuel st d n fun r _ _ => .again r := by
        intro fuel
        simp only [validatingChunkCrc, hst, hd, hcheck]
      have hn := checkLen_eq hcheck
      by_cases hfull : r.decompressedContent.len ≥ n
      · refine ⟨0, _, fun fuel _ => (hturn fuel).trans (if_pos hfull), ?_⟩
        split
        · exact hs
        · exact hnext
      have hgrow := hf st d n hst hd hcheck
      obtain ⟨N, r', st', d', ⟨ho, he, hcr, hst'⟩, hlen, hcomp, hpad, hul, hcase⟩ :=
        decompress_ok hgrow
      have hs' : Sound r' := by
        refine ⟨fun _ => by rw [hst']; simp, ?_, ?_⟩
        · intro st'' h
          rw [hst'] at h
          cases h
          omega
        · intro len h
          rw [hcr, hc] at h
          cases h
      have hdec : ∀ fuel, r.validatingChunkCrc D fuel =
          r.decompress D fuel st d n fun r _ _ => .again r :=
        fun fuel => (hturn fuel).trans (if_neg hfull)
      rcases hcase with ⟨hrun, hge, -⟩ | ⟨ev, hrun⟩
      · refine ⟨N, .again r', fun fuel hfuel => by rw [hdec, hrun _ _ hfuel], hs',
          less_of_unvalidated hlen hcr ?_, he⟩
        simp only [unvalidated, hcr, hc, hst, hst']
        omega
      · exact ⟨N, .ret r' ev, fun fuel hfuel => by rw [hdec, hrun _ _ hfuel], hs'⟩

theorem good_yieldPacked (hs : Sound r) (opcode : UInt8) {len : Nat}
    (hlen : OPCODE_LEN_SIZE + len ≤ r.decompressedContent.len) :
    Good q (r.yieldPacked opcode len) := by
  obtain ⟨b₁, hread, hv₁, -⟩ :=
    RwBuf.markRead_of_le (b := r.decompressedContent) (n := OPCODE_LEN_SIZE) (by omega)
  have hlen₁ : b₁.len = r.decompressedContent.len - OPCODE_LEN_SIZE := by
    rw [hv₁.len, List.length_drop, RwBuf.length_unread]
  obtain ⟨b₂, hcons, -⟩ := RwBuf.consume_of_le (b := b₁) (n := len) (by omega)
  simp only [yieldPacked, hread, hcons]
  exact ⟨hs.chunk, hs.total, hs.header⟩

theorem good_nextPacked (hs : Sound r) (hc : r.currentlyReading = .chunkRecord)
    (hst : r.chunkState = some st) {d : δ} (hf : r.PackedFits D st d) :
    ∃ N T, (∀ fuel, N ≤ fuel → r.nextPacked D fuel st d = T) ∧ Good q T := by
  have htotal := hs.total st hst
  have hsound : ∀ {r' : LinearReader δ} {st' : ChunkState δ}, r'.currentlyReading = .chunkRecord →
      r'.chunkState = some st' → st'.paddingAfterCompressedData = st.paddingAfterCompressedData →
      st'.compressedRemaining ≤ st.compressedRemaining → Sound r' := by
    intro r' st' h1 h2 h3 h4
    refine ⟨fun _ => by rw [h2]; simp, ?_, ?_⟩
    · intro st'' h
      rw [h2] at h
      cases h
      omega
    · intro len h
      rw [h1] at h
      cases h
  obtain ⟨hgrow, hnext⟩ := hf
  obtain ⟨N, r₁, st₁, d₁, ⟨ho₁, he₁, hcr₁, hst₁⟩, hlen₁, hcomp₁, hpad₁, -, hcase⟩ :=
    decompress_ok hgrow
  rcases hcase with ⟨hrun, hge, hgrown⟩ | ⟨ev, hrun⟩
  · obtain ⟨hann, hgrow₂⟩ := hnext _ hgrown
    have hturn : ∀ fuel, N ≤ fuel → r.nextPacked D fuel st d = _ := fun fuel hf => hrun fuel _ hf
    unfold AnnouncedFits at hann
    have hun : (r₁.inflate st₁ d₁).destBuf.unread = r₁.decompressedContent.unread := rfl
    rw [hun] at hann hgrow₂
    simp only [ho₁] at hturn
    rcases hol : opcodeAndLen (r₁.decompressedContent.unread.take OPCODE_LEN_SIZE) with ⟨opcode, len⟩
    rw [hol] at hann hgrow₂
    simp only [hol] at hturn hann hgrow₂
    cases hcheck : checkLen len r.options.recordLengthLimit with
    | none =>
      simp only [hcheck] at hturn
      exact ⟨N, _, hturn, hsound (hcr₁.trans hc) hst₁ hpad₁ hcomp₁⟩
    | some n =>
      have hroom := hann n hcheck
      simp only [hcheck] at hturn
      have hroom' : ¬ OPCODE_LEN_SIZE + n > USIZE_MAX := by omega
      simp only [if_neg hroom'] at hturn
      obtain ⟨N₂, r₂, st₂, d₂, ⟨-, -, hcr₂, hst₂⟩, -, hcomp₂, hpad₂, -, hcase₂⟩ :=
        decompress_ok (hgrow₂ n hcheck)
      have hs₂ : Sound r₂ := hsound (hcr₂.trans (hcr₁.trans hc)) hst₂ (hpad₂.trans hpad₁)
        (hcomp₂.trans hcomp₁)
      rcases hcase₂ with ⟨hrun₂, hge₂, -⟩ | ⟨ev, hrun₂⟩
      · refine ⟨max N N₂, r₂.yieldPacked opcode n, fun fuel hfuel => ?_,
          good_yieldPacked hs₂ opcode hge₂⟩
        rw [hturn fuel (by omega), hrun₂ _ _ (by omega)]
      · refine ⟨max N N₂, .ret r₂ ev, fun fuel hfuel => ?_, hs₂⟩
        rw [hturn fuel (by omega), hrun₂ _ _ (by omega)]
  · exact ⟨N, .ret r₁ ev, fun fuel hfuel => hrun fuel _ hfuel,
      hsound (hcr₁.trans hc) hst₁ hpad₁ hcomp₁⟩

theorem good_chunkRecord (hs : Sound r) (hc : r.currentlyReading = .chunkRecord) (hf : r.Fits D) :
    ∃ N T, (∀ fuel, N ≤ fuel → r.chunkRecord D fuel = T) ∧ Good r T := by
  obtain ⟨st, hst⟩ := Option.ne_none_iff_exists'.mp (hs.chunk (by rw [hc]; rfl))
  have htotal := hs.total st hst
  unfold Fits at hf
  rw [hc] at hf
  have hfst := hf st hst
  rcases hd : st.decompressor with _ | d
  · rw [hd] at hfst
    refine ⟨0, r.plainChunkRecord st, fun fuel _ => ?_, good_plainChunkRecord hs hc hst hfst⟩
    simp only [chunkRecord, hst, hd]
  · rw [hd] at hfst
    have hturn : ∀ fuel, r.chunkRecord D fuel = r.packedChunkRecord D fuel st d := by
      intro fuel
      simp only [chunkRecord, hst, hd]
    have hclear : r.clearDecompressed.currentlyReading = r.currentlyReading ∧
        r.clearDecompressed.chunkState = r.chunkState ∧
        r.clearDecompressed.fileData = r.fileData ∧ r.clearDecompressed.atEof = r.atEof := by
      unfold clearDecompressed
      split <;> exact ⟨rfl, rfl, rfl, rfl⟩
    obtain ⟨hcr, hcs, hfd, he⟩ := hclear
    have hs₀ : Sound r.clearDecompressed :=
      ⟨by rw [hcr, hcs]; exact hs.chunk, by rw [hcs]; exact hs.total, by rw [hcr]; exact hs.header⟩
    by_cases hend : st.uncompressedRemaining = 0 ∧ r.clearDecompressed.decompressedContent.len = 0
    · refine ⟨0, _, fun fuel _ => (hturn fuel).trans (if_pos hend), ?_⟩
      cases hcheck : checkLen st.compressedRemaining
          r.clearDecompressed.options.recordLengthLimit with
      | none => exact hs₀
      | some rest =>
        have hrest := checkLen_eq hcheck
        simp only
        rw [if_neg (by omega)]
        refine ⟨⟨fun _ => by simp, ?_, fun _ h => (by cases h)⟩, less_of_rank ?_ ?_, he⟩
        · rintro st' h
          cases h
          show st.paddingAfterCompressedData + rest + 0 ≤ USIZE_MAX
          omega
        · rw [hfd]
        · simp [hc, CurrentlyReading.rank]
    · obtain ⟨N, T, hT, hg⟩ := good_nextPacked (q := r) hs₀ (hcr.trans hc) (hcs.trans hst) (hfst hend)
      refine ⟨N, T, fun fuel hfuel => ?_, hg⟩
      rw [hturn, ← hT fuel hfuel]
      exact if_neg hend

/-- **The step lemma**: a turn that fits neither panics nor hangs. -/
theorem turn_ok (hs : Sound r) (hf : r.Fits D) :
    ∃ N T, (∀ fuel, N ≤ fuel → r.turn D fuel = T) ∧ Good r T := by
  cases hc : r.currentlyReading with
  | startMagic => exact ⟨0, _, fun fuel _ => by rw [turn, hc], good_startMagic hs hc⟩
  | fileRecord =>
    refine ⟨0, _, fun fuel _ => by rw [turn, hc], good_fileRecord hs ?_⟩
    unfold Fits at hf
    rw [hc] at hf
    exact hf
  | dataEnd len calculated =>
    exact ⟨0, _, fun fuel _ => by rw [turn, hc], good_dataEnd hs len calculated⟩
  | footer len hasher => exact ⟨0, _, fun fuel _ => by rw [turn, hc], good_footer hs len hasher⟩
  | chunkHeader len => exact ⟨0, _, fun fuel _ => by rw [turn, hc], good_chunkHeader hs hc⟩
  | validatingChunkCrc =>
    unfold Fits at hf
    rw [hc] at hf
    obtain ⟨N, T, hT, hg⟩ := good_validatingChunkCrc hs hc hf
    exact ⟨N, T, fun fuel hfuel => by rw [turn, hc]; exact hT fuel hfuel, hg⟩
  | chunkRecord =>
    obtain ⟨N, T, hT, hg⟩ := good_chunkRecord hs hc hf
    exact ⟨N, T, fun fuel hfuel => by rw [turn, hc]; exact hT fuel hfuel, hg⟩
  | paddingAfterChunk => exact ⟨0, _, fun fuel _ => by rw [turn, hc], good_paddingAfterChunk hs hc⟩
  | endMagic => exact ⟨0, _, fun fuel _ => by rw [turn, hc], good_endMagic hs hc⟩
  | afterEndMagic => exact ⟨0, _, fun fuel _ => by rw [turn, hc], good_afterEndMagic hs⟩

end LinearReader

/-! ## Whole runs -/

/-- Where a run stands: between calls, inside a call, or after a read request. -/
inductive Where
  | ready
  | inside
  | asked
deriving DecidableEq

/-- A turn of the loop comes to `T`, given enough fuel. -/
def Turns (D : Decompressor δ) (r : LinearReader δ) (T : Turn δ) : Prop :=
  ∃ N, ∀ fuel, N ≤ fuel → r.turn D fuel = T

/-- **The states of a run whose turns all fit**, for every way of answering its read
requests.  A call goes round its loop until a turn returns; a record is followed by
the next call, a request by an answer, and the run is over after an error or at the
end. -/
inductive Visits (D : Decompressor δ) (o : LinearReaderOptions) : Where → LinearReader δ → Prop
  | start : Visits D o .ready (LinearReader.newWithOptions o)
  | call {r} : Visits D o .ready r → r.atEof = false → Visits D o .inside r
  | again {r r'} : Visits D o .inside r → r.Fits D → Turns D r (.again r') → Visits D o .inside r'
  | record {r r' opcode data} : Visits D o .inside r → r.Fits D →
      Turns D r (.ret r' (some (.ok (.record opcode data)))) → Visits D o .ready r'
  | request {r r' n} : Visits D o .inside r → r.Fits D →
      Turns D r (.ret r' (some (.ok (.readRequest n)))) → Visits D o .asked r'
  | feed {r r' n piece} : Visits D o .asked r → r.feed n piece = some r' → Visits D o .ready r'

/-- The states that a call made in `r` goes through. -/
def Within (D : Decompressor δ) (r r' : LinearReader δ) : Prop :=
  ReflTransGen (fun r₁ r₂ => Turns D r₁ (.again r₂)) r r'

section
variable {o : LinearReaderOptions} {r : LinearReader δ}

theorem Turns.unique {T T' : Turn δ} (h : Turns D r T) (h' : Turns D r T') : T = T' := by
  obtain ⟨N, hN⟩ := h
  obtain ⟨M, hM⟩ := h'
  rw [← hN (max N M) (Nat.le_max_left _ _), ← hM (max N M) (Nat.le_max_right _ _)]

theorem sound_new (o : LinearReaderOptions) :
    (LinearReader.newWithOptions o : LinearReader δ).Sound := by
  have hc : ∀ {P : CurrentlyReading → Prop}, P .fileRecord → P .startMagic →
      P (LinearReader.newWithOptions o : LinearReader δ).currentlyReading := by
    intro P h1 h2
    show P (if o.skipStartMagic then .fileRecord else .startMagic)
    split
    · exact h1
    · exact h2
  refine ⟨?_, fun _ h => (by cases h), ?_⟩
  · exact hc (P := fun c => c.inChunk = true → _) (fun h => (by cases h)) (fun h => (by cases h))
  · exact hc (P := fun c => ∀ len, c = .chunkHeader len → len ≤ USIZE_MAX)
      (fun _ h => (by cases h)) (fun _ h => (by cases h))

theorem good_of_turns (hs : r.Sound) (hf : r.Fits D) {T : Turn δ} (hT : Turns D r T) :
    LinearReader.Good r T := by
  obtain ⟨N, T', hT', hg⟩ := LinearReader.turn_ok hs hf
  rw [hT.unique ⟨N, hT'⟩]
  exact hg

theorem sound_of_visits {w : Where} (h : Visits D o w r) : r.Sound := by
  induction h with
  | start => exact sound_new o
  | call _ _ ih => exact ih
  | again _ hf hT ih => exact (good_of_turns ih hf hT).1
  | record _ hf hT ih | request _ hf hT ih => exact good_of_turns ih hf hT
  | feed _ hfeed ih =>
    obtain ⟨fileData, -, rfl⟩ := feed_eq hfeed
    exact ⟨ih.chunk, ih.total, ih.header⟩

theorem returns_inside (h : Visits D o .inside r) (he : r.atEof = false)
    (hf : ∀ r', Within D r r' → r'.Fits D) : ∃ r' ev, Returns D r (.ret r' ev) := by
  induction r using LinearReader.less_wf.induction with
  | _ r ih =>
    have hfit := hf r .refl
    obtain ⟨N, T, hT, hg⟩ := LinearReader.turn_ok (sound_of_visits h) hfit
    cases T with
    | again r' =>
      obtain ⟨-, hless, he'⟩ := hg
      obtain ⟨r'', ev, hr⟩ := ih r' hless (.again h hfit ⟨N, hT⟩) (he'.trans he)
        fun r₂ hr₂ => hf r₂ (.head ⟨N, hT⟩ hr₂)
      exact ⟨r'', ev, Returns.of_again he (he'.trans he) hT hr⟩
    | ret r' ev => exact ⟨r', ev, Returns.of_ret he hT⟩
    | panic => exact hg.elim
    | spin => exact hg.elim

/-- **Every call returns.**  In a run whose states all fit, `next_event` neither
panics nor hangs, however the input is fed. -/
theorem returns_of_fits (h : Visits D o .ready r) (hf : ∀ r', Within D r r' → r'.Fits D) :
    ∃ r' ev, Returns D r (.ret r' ev) := by
  cases he : r.atEof with
  | false => exact returns_inside (.call h he) he hf
  | true =>
    by_cases hok : (r.options.skipEndMagic ∨ r.currentlyReading = .afterEndMagic) ∧
        r.fileData.len = 0 ∧ r.decompressedContent.len = 0 ∧ r.chunkState.isNone
    · refine ⟨r, none, 0, fun fuel _ => ?_⟩
      rw [LinearReader.nextEvent, if_pos he, if_pos hok]
    · refine ⟨r, some (.error .unexpectedEof), 0, fun fuel _ => ?_⟩
      rw [LinearReader.nextEvent, if_pos he, if_neg hok]

end

/-- A record that announces the largest 64-bit length. -/
def hugeRecord : Bytes := MAGIC ++ [0x80] ++ List.replicate 8 0xff

/-- **An announced length can overflow.**  The nine bytes before the body are added
to a length that no option limits. -/
theorem panics_hugeRecord :
    ¬ ∀ (δ : Type) (D : Decompressor δ) (o : LinearReaderOptions) (bytes : Bytes)
      (evs : List (UInt8 × Bytes)) (fin : Final),
      Run D (LinearReader.newWithOptions o) bytes evs fin → fin ≠ .panicked := by
  intro h
  have hdrive : drive storedLz4 (fun n _ => n) 10 (LinearReader.newWithOptions {}) hugeRecord =
      some ([], .panicked) := by decide +kernel
  exact h Stored storedLz4 {} hugeRecord _ _ (run_of_drive _ hdrive) rfl

/-- The reader after its first request has been answered with a magic and a record. -/
def fedReader : LinearReader Stored :=
  ((LinearReader.newWithOptions {}).feed 18 (MAGIC ++ frame 0x80 [1])).getD
    (LinearReader.newWithOptions {})

/-- The reader has the magic behind it. -/
def magicRead : LinearReader Stored :=
  match fedReader.turn storedLz4 0 with
  | .again r => r
  | _ => fedReader

theorem returns_of_fits_fedReader :
    ∃ r' ev, Returns storedLz4 fedReader (.ret r' ev) := by
  have hfeed : ((LinearReader.newWithOptions {}).feed 18 (MAGIC ++ frame 0x80 [1])) =
      some fedReader := rfl
  have hvisits : Visits storedLz4 {} .ready fedReader :=
    .feed (.request (n := 8) (.call .start rfl) trivial ⟨0, fun fuel _ => rfl⟩) hfeed
  have hagain : Turns storedLz4 fedReader (.again magicRead) := ⟨0, fun fuel _ => rfl⟩
  have hlast : ∀ r', Turns storedLz4 magicRead (.again r') → False := by
    rintro r' ⟨N, hN⟩
    cases hN N (Nat.le_refl _)
  refine returns_of_fits hvisits fun r' hr' => ?_
  -- the call goes through two states: the magic, then the record
  rcases ReflTransGen.cases_head hr' with rfl | ⟨r₁, h₁, hr'⟩
  · trivial
  cases h₁.unique hagain
  rcases ReflTransGen.cases_head hr' with rfl | ⟨r₂, h₂, -⟩
  · intro _ _ len hlen
    have hone : checkLen (opcodeAndLen (magicRead.fileData.unread.take OPCODE_LEN_SIZE)).2 none =
        some 1 := by decide +kernel
    cases hone.symm.trans hlen
    decide
  · exact (hlast _ h₂).elim

end Mcap

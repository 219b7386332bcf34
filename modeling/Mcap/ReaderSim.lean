import Mcap.InflateSpec

/-! # The streaming reader simulates the reader that has everything

`Sim Δ r rest s` relates a streaming reader `r`, the bytes `rest` it has not been
fed yet, and a reader `s` that holds everything that is left.  Outside compressed
chunks the unread bytes of `r` followed by `rest` are the bytes of `s`.  Inside a
compressed chunk `r` may be behind: `c` is what is left of the compressed bytes,
`pend` is what it still unpacks to, and the decompressed buffer holds the front
of the records.

`sim_turn` is the step lemma, assembled from one lemma per state: a turn of the
streaming reader is the same turn of `s`, or a request for more input that leaves
the relation as it was.
-/
namespace Mcap
open LinearReader (opcodeAndLen MIN_CHUNK_HEADER_SIZE)

variable {δ : Type} {D : Decompressor δ} {o : LinearReaderOptions}

/-! ## The relation -/

/-- The buffer `b` is fed from `rest`.  Once `c` has been read off it, `bytes` is
left of the input and `h` has absorbed what was read. -/
structure Ahead (b : RwBuf) (rest c bytes : Bytes) (h : Option Hasher) : Prop where
  bytes : b.unread ++ rest = c ++ bytes
  hasher : Spec.absorb b.hasher c = h

namespace LinearReader

/-- Outside a chunk. -/
structure AtTop (r : LinearReader δ) (rest : Bytes) (s : Spec) (state : CurrentlyReading) :
    Prop where
  state : r.currentlyReading = state
  noChunk : r.chunkState = none
  ahead : Ahead r.fileData rest [] s.bytes s.hasher
  empty : r.decompressedContent.unread = []

/-- In an uncompressed chunk, `remaining` bytes before its end. -/
structure InPlain (r : LinearReader δ) (rest : Bytes) (s : Spec) (state : CurrentlyReading)
    (remaining : Nat) (c : OpenChunk) (st : ChunkState δ) : Prop where
  state : r.currentlyReading = state
  chunk : r.chunkState = some st
  plain : st.decompressor = none
  remaining : st.compressedRemaining = remaining
  hasher : st.uncompressedDataHasher = c.hasher
  crc : st.crc = c.crc
  padding : st.paddingAfterCompressedData = c.padding
  ahead : Ahead r.fileData rest [] s.bytes s.hasher
  empty : r.decompressedContent.unread = []

/-- In a compressed chunk: `comp` is left of the compressed bytes, `pend` is left
of what they unpack to. -/
structure InPacked (Δ : Decoding D o.recordLengthLimit) (r : LinearReader δ) (rest : Bytes)
    (s : Spec) (state : CurrentlyReading) (out : Bytes) (c : OpenChunk) (name : String)
    (st : ChunkState δ) (d : δ) (comp pend : Bytes) : Prop where
  state : r.currentlyReading = state
  chunk : r.chunkState = some st
  packed : st.decompressor = some d
  known : Spec.available D name = .ok () ∧ name ≠ ""
  mid : Δ.Mid name d comp pend
  compressed : st.compressedRemaining = comp.length
  uncompressed : st.uncompressedRemaining = pend.length
  out : out = r.decompressedContent.unread ++ pend
  hasher : r.decompressedContent.hasher = c.hasher
  crc : st.crc = c.crc
  padding : st.paddingAfterCompressedData = c.padding
  ahead : Ahead r.fileData rest comp s.bytes s.hasher
  total : st.paddingAfterCompressedData + st.compressedRemaining ≤ USIZE_MAX
  room : r.decompressedContent.end_ ≤ ISIZE_MAX

/-- After the records of a chunk, whose last `comp` compressed bytes were not
needed. -/
structure InPadding (Δ : Decoding D o.recordLengthLimit) (r : LinearReader δ) (rest : Bytes)
    (s : Spec) (c : OpenChunk) (st : ChunkState δ) (comp : Bytes) : Prop where
  state : r.currentlyReading = .paddingAfterChunk
  chunk : r.chunkState = some st
  padding : st.paddingAfterCompressedData = comp.length + c.padding
  crc : st.crc = c.crc
  ahead : Ahead r.fileData rest comp s.bytes s.hasher
  empty : r.decompressedContent.unread = []
  hasher : (st.decompressor = none ∧ st.uncompressedDataHasher = c.hasher) ∨
    ∃ d name, st.decompressor = some d ∧ r.decompressedContent.hasher = c.hasher ∧
      Spec.available D name = .ok () ∧ name ≠ "" ∧ Δ.Mid name d comp []

/-- What the phase of `s` says about `r`. -/
def InPhase (Δ : Decoding D o.recordLengthLimit) (r : LinearReader δ) (rest : Bytes) (s : Spec) :
    Phase → Prop
  | .startMagic => r.AtTop rest s .startMagic
  | .fileRecord => r.AtTop rest s .fileRecord
  | .chunkHeader len => r.AtTop rest s (.chunkHeader len) ∧ len ≤ USIZE_MAX
  | .footer len hasher => r.AtTop rest s (.footer len hasher)
  | .dataEnd len calculated => r.AtTop rest s (.dataEnd len calculated)
  | .endMagic => r.AtTop rest s .endMagic
  | .afterEndMagic => r.AtTop rest s .afterEndMagic
  | .validatingPlain remaining c => ∃ st, r.InPlain rest s .validatingChunkCrc remaining c st
  | .plainChunk remaining c => ∃ st, r.InPlain rest s .chunkRecord remaining c st
  | .validatingPacked out c => ∃ name st d comp pend,
      r.InPacked Δ rest s .validatingChunkCrc out c name st d comp pend ∧
      st.uncompressedLen = out.length ∧ r.decompressedContent.start = 0
  | .packedChunk out base validated c => ∃ name st d comp pend,
      r.InPacked Δ rest s .chunkRecord out c name st d comp pend ∧
      (r.decompressedContent.len ≠ 0 → r.decompressedContent.start = base) ∧
      (if validated then pend = [] else base = 0 ∧ r.decompressedContent.len ≤
        OPCODE_LEN_SIZE + (opcodeAndLen (out.take OPCODE_LEN_SIZE)).2)
  | .paddingAfterChunk c => ∃ st comp, r.InPadding Δ rest s c st comp

end LinearReader

/-- The decompressors kept from earlier chunks are fit for the next one. -/
def Cached (Δ : Decoding D o.recordLengthLimit) (decompressors : String → Option δ) : Prop :=
  ∀ name d, decompressors name = some d →
    Δ.Fresh name d ∧ Spec.available D name = .ok () ∧ name ≠ ""

/-- **The simulation relation.** -/
structure Sim (Δ : Decoding D o.recordLengthLimit) (r : LinearReader δ) (rest : Bytes) (s : Spec) :
    Prop where
  options : r.options = o
  running : r.atEof = false
  cached : Cached Δ r.decompressors
  phase : r.InPhase Δ rest s s.phase

/-- A turn of the streaming reader against a turn of `s`. -/
inductive Matched (Δ : Decoding D o.recordLengthLimit) (rest : Bytes) (s : Spec) :
    Turn δ → SpecTurn → Prop
  | again {r s'} : Sim Δ r rest s' → Matched Δ rest s (.again r) (.again s')
  | record {r s' opcode data} : Sim Δ r rest s' →
      Matched Δ rest s (.ret r (some (.ok (.record opcode data)))) (.record opcode data s')
  | fail {r e} : Matched Δ rest s (.ret r (some (.error e))) (.fail e)
  | done {r} : Matched Δ rest s (.ret r none) .done
  | panic : Matched Δ rest s .panic .panic
  | packed {r name size c n k} :
      (∀ out, c.length = size → out.length = n → Unpacks Δ name c out → Sim Δ r rest (k out)) →
      Matched Δ rest s (.again r) (.packed name size c n k)
  | request {r n t} : Sim Δ r rest s → (rest = [] → t = .eof) →
      Matched Δ rest s (.ret r (some (.ok (.readRequest n)))) t
  /-- Go round once more before anything is seen of `s`. -/
  | once {r T t N} : r.atEof = false → (∀ fuel, N ≤ fuel → r.turn D fuel = T) →
      Matched Δ rest s T t → Matched Δ rest s (.again r) t

/-! ## Reading from the file -/

section
variable {Δ : Decoding D o.recordLengthLimit} {r : LinearReader δ} {rest : Bytes} {s : Spec}
  {n : Nat} {t : SpecTurn} {b : RwBuf} {bytes : Bytes} {h : Option Hasher} {len : Nat}
  {c : OpenChunk} {name : String} {d : δ} {out : Bytes} {st : ChunkState δ} {comp pend : Bytes}
  {base : Nat} {validated : Bool}

theorem Sim.inPhase (hs : Sim Δ r rest s) {phase : Phase} (hp : s.phase = phase) :
    r.InPhase Δ rest s phase := hp ▸ hs.phase

theorem matched_load (hs : Sim Δ r rest s) (ha : Ahead r.fileData rest [] s.bytes s.hasher)
    {k : Bytes → Turn δ}
    (h : n ≤ r.fileData.len → n ≤ s.bytes.length → Matched Δ rest s (k (s.bytes.take n)) t) :
    Matched Δ rest s (r.load n k) (s.need n t) := by
  have hb : r.fileData.unread ++ rest = s.bytes := ha.bytes
  have hlen : r.fileData.len + rest.length = s.bytes.length := by
    rw [← hb, List.length_append, RwBuf.length_unread]
  unfold LinearReader.load Spec.need
  split
  · refine .request hs fun hr => if_pos ?_
    rw [hr, List.length_nil] at hlen
    omega
  · have htake : r.fileData.unread.take n = (r.fileData.unread ++ rest).take n :=
      (List.take_append_of_le_length (by rw [RwBuf.length_unread]; omega)).symm
    rw [if_neg (by omega), htake, hb]
    exact h (by omega) (by omega)

theorem Ahead.drop {b' : RwBuf} {c : Bytes} (ha : Ahead b rest c bytes h)
    (hn : c.length + n ≤ b.len) (hv : b'.Shows (b.unread.drop (c.length + n))
      (Spec.absorb b.hasher (b.unread.take (c.length + n)))) :
    b.unread.take (c.length + n) = c ++ bytes.take n ∧
      Ahead b' rest [] (bytes.drop n) (Spec.absorb h (bytes.take n)) := by
  have htake : b.unread.take (c.length + n) = c ++ bytes.take n := by
    have : b.unread.take (c.length + n) = (b.unread ++ rest).take (c.length + n) :=
      (List.take_append_of_le_length (by rw [RwBuf.length_unread]; exact hn)).symm
    rw [this, ha.bytes, List.take_length_add_append]
  refine ⟨htake, ?_, ?_⟩
  · rw [hv.unread, ← List.drop_append_of_le_length (by rw [RwBuf.length_unread]; exact hn),
      ha.bytes, List.drop_length_add_append]
    rfl
  · rw [hv.hasher, htake, absorb_nil, ← ha.hasher, absorb_append]

theorem Ahead.markRead (ha : Ahead b rest [] bytes h) (hn : n ≤ b.len) :
    ∃ b', b.markRead n = some b' ∧
      Ahead b' rest [] (bytes.drop n) (Spec.absorb h (bytes.take n)) := by
  obtain ⟨b', hb', hv, -⟩ := RwBuf.markRead_of_le hn
  refine ⟨b', hb', (ha.drop (by simpa using hn) ?_).2⟩
  simpa [Spec.absorb] using hv

/-- `consume!` against `need` and `skip`.  What `s` took off the input before, `c`,
is consumed with the rest. -/
theorem matched_consume (hs : Sim Δ r rest s) {c : Bytes}
    (ha : Ahead r.fileData rest c s.bytes s.hasher) {m : Nat} (hm : m = c.length + n)
    {k : Bytes → LinearReader δ → Turn δ}
    (h : ∀ fileData, Ahead fileData rest [] (s.skip n).bytes (s.skip n).hasher →
      n ≤ s.bytes.length →
      Matched Δ rest s (k (c ++ s.bytes.take n) { r with fileData }) t) :
    Matched Δ rest s (r.consume m k) (s.need n t) := by
  have hlen := congrArg List.length ha.bytes
  rw [List.length_append, List.length_append, RwBuf.length_unread] at hlen
  unfold LinearReader.consume Spec.need
  split
  · refine .request hs fun hr => if_pos ?_
    rw [hr, List.length_nil] at hlen
    omega
  · rename_i hge
    subst hm
    obtain ⟨b, hcons, hv, -⟩ := RwBuf.consume_of_le (b := r.fileData) (n := c.length + n) (by omega)
    obtain ⟨htake, hahead⟩ := ha.drop (by omega) hv
    rw [if_neg (by omega), hcons, htake]
    exact h b hahead (by omega)

theorem matched_consume_top (hs : Sim Δ r rest s) (ha : Ahead r.fileData rest [] s.bytes s.hasher)
    {k : Bytes → LinearReader δ → Turn δ}
    (h : ∀ fileData, Ahead fileData rest [] (s.skip n).bytes (s.skip n).hasher →
      n ≤ s.bytes.length → Matched Δ rest s (k (s.bytes.take n) { r with fileData }) t) :
    Matched Δ rest s (r.consume n k) (s.need n t) :=
  matched_consume hs ha (by simp) h

theorem Ahead.hasher_eq (ha : Ahead b rest [] bytes h) : b.hasher = h := by
  rw [← ha.hasher, absorb_nil]

theorem Ahead.setHasher (ha : Ahead b rest [] bytes h) (h' : Option Hasher) :
    Ahead (b.setHasher h') rest [] bytes h' :=
  ⟨ha.bytes, absorb_nil h'⟩

theorem Ahead.consumeWithoutHashing (ha : Ahead b rest [] bytes h) (hn : n ≤ b.len) :
    ∃ b', b.consumeWithoutHashing n = some (bytes.take n, b') ∧
      Ahead b' rest [] (bytes.drop n) h := by
  have hb : b.unread ++ rest = bytes := ha.bytes
  obtain ⟨b', hb', hv⟩ := RwBuf.consumeWithoutHashing_of_le hn
  rw [← RwBuf.length_unread] at hn
  refine ⟨b', ?_, ?_, ?_⟩
  · rw [hb', ← hb, List.take_append_of_le_length hn]
  · rw [hv.unread, ← List.drop_append_of_le_length hn, hb]
    rfl
  · rw [hv.hasher, ha.hasher]

/-! ## Outside chunks -/

theorem matched_startMagic (hs : Sim Δ r rest s) (hp : s.phase = .startMagic) :
    Matched Δ rest s r.startMagic (s.startMagic o) := by
  have ht : r.AtTop rest s .startMagic := hs.inPhase hp
  have hopt := hs.options
  subst hopt
  unfold LinearReader.startMagic Spec.startMagic
  split
  · exact .again ⟨rfl, hs.running, hs.cached, rfl, ht.noChunk, ht.ahead, ht.empty⟩
  · refine matched_consume_top hs ht.ahead fun fileData ha _ => ?_
    split
    · exact .fail
    · exact .again ⟨rfl, hs.running, hs.cached, rfl, ht.noChunk, ha, ht.empty⟩

theorem opcodeAndLen_le (bs : Bytes) :
    (opcodeAndLen (bs.take OPCODE_LEN_SIZE)).2 ≤ USIZE_MAX := by
  have hlt := ofLe_lt ((bs.take OPCODE_LEN_SIZE).drop 1)
  have hlen : ((bs.take OPCODE_LEN_SIZE).drop 1).length ≤ 8 := by
    simp only [List.length_drop, List.length_take, OPCODE_LEN_SIZE]
    omega
  have hpow : 256 ^ ((bs.take OPCODE_LEN_SIZE).drop 1).length ≤ 256 ^ 8 :=
    Nat.pow_le_pow_right (by omega) hlen
  simp only [opcodeAndLen, USIZE_MAX]
  omega

theorem matched_fileRecord (hs : Sim Δ r rest s) (hp : s.phase = .fileRecord) :
    Matched Δ rest s r.fileRecord (s.fileRecord o) := by
  have ht : r.AtTop rest s .fileRecord := hs.inPhase hp
  have hopt := hs.options
  subst hopt
  unfold LinearReader.fileRecord Spec.fileRecord
  refine matched_load hs ht.ahead fun hlen _ => ?_
  obtain ⟨fileData, hread, ha⟩ := ht.ahead.markRead hlen
  have hle := opcodeAndLen_le s.bytes
  rcases hol : opcodeAndLen (s.bytes.take OPCODE_LEN_SIZE) with ⟨opcode, len⟩
  rw [hol] at hle
  simp only [hread]
  by_cases hchunk : opcode = op.CHUNK ∧ (!r.options.emitChunks) = true
  · rw [if_pos hchunk, if_pos hchunk]
    exact .again ⟨rfl, hs.running, hs.cached, ⟨rfl, ht.noChunk, ha, ht.empty⟩, hle⟩
  rw [if_neg hchunk, if_neg hchunk]
  by_cases hend : opcode = op.DATA_END
  · obtain ⟨fileData, hread, ha⟩ := (ht.ahead.setHasher none).markRead hlen
    rw [if_pos hend, if_pos hend, hread, ht.ahead.hasher_eq]
    exact .again ⟨rfl, hs.running, hs.cached, rfl, ht.noChunk, ha, ht.empty⟩
  rw [if_neg hend, if_neg hend]
  by_cases hfoot : opcode = op.FOOTER
  · rw [if_pos hfoot, if_pos hfoot, ha.hasher_eq]
    exact .again ⟨rfl, hs.running, hs.cached, rfl, ht.noChunk, ha.setHasher none, ht.empty⟩
  rw [if_neg hfoot, if_neg hfoot]
  cases hcheck : checkLen len r.options.recordLengthLimit with
  | none => exact .fail
  | some n =>
    by_cases hbig : OPCODE_LEN_SIZE + n > USIZE_MAX
    · simp only [if_pos hbig]
      exact .panic
    · simp only [if_neg hbig]
      refine matched_consume_top hs ht.ahead fun fileData ha _ => ?_
      refine .record ⟨rfl, hs.running, hs.cached, ?_⟩
      show LinearReader.InPhase Δ _ rest _ s.phase
      rw [hp]
      exact ⟨ht.state, ht.noChunk, ha, ht.empty⟩

theorem matched_dataEnd (hs : Sim Δ r rest s) {calculated : Option UInt32}
    (hp : s.phase = .dataEnd len calculated) :
    Matched Δ rest s (r.dataEnd len calculated) (s.dataEnd o len calculated) := by
  have ht : r.AtTop rest s (.dataEnd len calculated) := hs.inPhase hp
  have hopt := hs.options
  subst hopt
  unfold LinearReader.dataEnd Spec.dataEnd
  cases hcheck : checkLen len r.options.recordLengthLimit with
  | none => exact .fail
  | some n =>
    refine matched_load hs ht.ahead fun hlen _ => ?_
    rcases hrec : readLeFrom DataEnd.read (s.bytes.take n) with e | ⟨rec, cur⟩
    · exact .fail
    have hyield : Matched Δ rest s (r.dataEndRecord n)
        (.record op.DATA_END (s.bytes.take n)
          { phase := .fileRecord
            bytes := s.bytes.drop n
            hasher := if r.options.validateSummarySectionCrc then some Hasher.new else s.hasher }) := by
      unfold LinearReader.dataEndRecord
      split
      · obtain ⟨fileData, hc, ha⟩ :=
          (ht.ahead.setHasher (some Hasher.new)).consumeWithoutHashing hlen
        simp only [hc]
        exact .record ⟨rfl, hs.running, hs.cached, rfl, ht.noChunk, ha, ht.empty⟩
      · obtain ⟨fileData, hc, ha⟩ := ht.ahead.consumeWithoutHashing hlen
        simp only [hc]
        exact .record ⟨rfl, hs.running, hs.cached, rfl, ht.noChunk, ha, ht.empty⟩
    simp only
    rcases calculated with _ | calculated
    · exact hyield
    · simp only
      split
      · exact .fail
      · exact hyield

theorem matched_footer (hs : Sim Δ r rest s) {hasher : Option Hasher}
    (hp : s.phase = .footer len hasher) :
    Matched Δ rest s (r.footer len hasher) (s.footer o len hasher) := by
  have ht : r.AtTop rest s (.footer len hasher) := hs.inPhase hp
  have hopt := hs.options
  subst hopt
  unfold LinearReader.footer Spec.footer
  cases hcheck : checkLen len r.options.recordLengthLimit with
  | none => exact .fail
  | some n =>
    refine matched_consume_top hs ht.ahead fun fileData ha _ => ?_
    rcases hrec : readLeFrom Footer.read (s.bytes.take n) with e | ⟨rec, cur⟩
    · exact .fail
    have hyield : Matched Δ rest s
        (LinearReader.leave { r with fileData, currentlyReading := .endMagic }
          (some (.ok (.record op.FOOTER (s.bytes.take n)))))
        (.record op.FOOTER (s.bytes.take n) { s.skip n with phase := .endMagic }) :=
      .record ⟨rfl, hs.running, hs.cached, rfl, ht.noChunk, ha, ht.empty⟩
    simp only
    rcases hasher with _ | hasher
    · exact hyield
    · simp only
      split
      · exact .panic
      split
      · exact .fail
      · exact hyield

theorem matched_endMagic (hs : Sim Δ r rest s) (hp : s.phase = .endMagic) :
    Matched Δ rest s r.endMagic (s.endMagic o) := by
  have ht : r.AtTop rest s .endMagic := hs.inPhase hp
  have hopt := hs.options
  subst hopt
  unfold LinearReader.endMagic Spec.endMagic
  split
  · exact .done
  · refine matched_consume_top hs ht.ahead fun fileData ha _ => ?_
    split
    · exact .again ⟨rfl, hs.running, hs.cached, rfl, ht.noChunk, ha, ht.empty⟩
    · exact .fail

theorem matched_afterEndMagic (hs : Sim Δ r rest s) (hp : s.phase = .afterEndMagic) :
    Matched Δ rest s r.afterEndMagic (s.afterEndMagic o) := by
  have ht : r.AtTop rest s .afterEndMagic := hs.inPhase hp
  have hb : r.fileData.unread ++ rest = s.bytes := ht.ahead.bytes
  have hrun := hs.running
  have hopt := hs.options
  subst hopt
  have hlen : r.fileData.len + rest.length = s.bytes.length := by
    rw [← hb, List.length_append, RwBuf.length_unread]
  unfold LinearReader.afterEndMagic Spec.afterEndMagic
  split
  · by_cases h0 : r.fileData.len > 0
    · rw [if_pos h0, if_pos (by omega)]
      exact .fail
    · rw [if_neg h0, hrun]
      refine .request hs fun hr => if_neg ?_
      rw [hr, List.length_nil] at hlen
      omega
  · exact .done

/-! ## Entering a chunk -/

/-- `get_decompressor` returns a decompressor exactly when one is `available`, and
then a fresh one. -/
theorem getDecompressor_spec {decompressors : String → Option δ}
    (hcached : Cached Δ decompressors) (name : String) :
    match Spec.available D name with
    | .error e => ∃ ds, getDecompressor D decompressors name = (.error e, ds)
    | .ok _ => ∃ decompressor ds, getDecompressor D decompressors name = (.ok decompressor, ds) ∧
        (name = "" → decompressor = none) ∧
        (name ≠ "" → ∃ d, decompressor = some d ∧ Δ.Fresh name d) ∧ Cached Δ ds := by
  unfold getDecompressor
  cases hd : decompressors name with
  | some d =>
    obtain ⟨hfresh, havail, hne⟩ := hcached name d hd
    rw [havail]
    refine ⟨some d, _, rfl, fun h => absurd h hne, fun _ => ⟨d, rfl, hfresh⟩, fun name' d' h => ?_⟩
    by_cases hn : name' = name
    · rw [hn, Function.update_self] at h
      cases h
    · rw [Function.update_of_ne hn] at h
      exact hcached name' d' h
  | none =>
    unfold Spec.available
    by_cases hz : name = "zstd"
    · subst hz
      exact ⟨_, _, rfl, fun h => absurd h (by decide), fun _ => ⟨_, rfl, Δ.zstd⟩, hcached⟩
    by_cases he : name = ""
    · subst he
      exact ⟨_, _, rfl, fun _ => rfl, fun h => absurd rfl h, hcached⟩
    by_cases hl : name = "lz4"
    · subst hl
      cases h4 : D.newLz4 with
      | error e => exact ⟨_, rfl⟩
      | ok d => exact ⟨_, _, rfl, fun h => absurd h (by decide), fun _ => ⟨_, rfl, Δ.lz4 h4⟩, hcached⟩
    · simp only [hz, he, hl, or_self, if_false]
      exact ⟨_, rfl⟩

theorem Ahead.split (ha : Ahead b rest [] bytes h) (n : Nat) :
    Ahead b rest (bytes.take n) (bytes.drop n) (Spec.absorb h (bytes.take n)) := by
  refine ⟨?_, ?_⟩
  · rw [List.take_append_drop]
    exact ha.bytes
  · rw [ha.hasher_eq]

theorem matched_enterChunk (hopt : r.options = o) (hrun : r.atEof = false)
    (hcached : Cached Δ r.decompressors) {s' : Spec} (ha : Ahead r.fileData rest [] s'.bytes s'.hasher)
    (header : ChunkHeader) {decompressor : Option δ}
    (havail : Spec.available D header.compression = .ok ())
    (hplain : header.compression = "" → decompressor = none)
    (hpacked : header.compression ≠ "" → ∃ d, decompressor = some d ∧ Δ.Fresh header.compression d)
    {padding : Nat} (hpad : padding + header.compressedSize.toNat ≤ USIZE_MAX) :
    Matched Δ rest s (r.enterChunk header decompressor padding)
      (Spec.enterChunk o s' header padding) := by
  subst hopt
  unfold LinearReader.enterChunk Spec.enterChunk
  by_cases hname : header.compression = ""
  · have hempty : header.compression.isEmpty = true := by rw [hname]; rfl
    rw [if_pos hname]
    simp only [hempty, Bool.and_true, Bool.not_true, Bool.and_false]
    refine .again ⟨rfl, hrun, hcached, ?_⟩
    by_cases hpre : Spec.prevalidated r.options header
    · rw [if_pos hpre]
      exact ⟨_, if_pos hpre, rfl, hplain hname, rfl, rfl, rfl, rfl, ha, rfl⟩
    · rw [if_neg hpre]
      exact ⟨_, if_neg hpre, rfl, hplain hname, rfl, rfl, rfl, rfl, ha, rfl⟩
  · obtain ⟨d, rfl, hfresh⟩ := hpacked hname
    have hempty : header.compression.isEmpty = false := by
      cases hi : header.compression.isEmpty
      · rfl
      · exact absurd (String.isEmpty_iff.mp hi) hname
    rw [if_neg hname]
    simp only [hempty, Bool.and_false, Bool.not_false, Bool.and_true]
    refine .packed fun out hsize hlen hunp => ⟨rfl, hrun, hcached, ?_⟩
    have hmid := hunp d hfresh
    by_cases hpre : Spec.prevalidated r.options header
    · rw [if_pos hpre]
      refine ⟨header.compression, _, d, s'.bytes.take header.compressedSize.toNat, out,
        ⟨if_pos hpre, rfl, rfl, ⟨havail, hname⟩, hmid, hsize.symm, hlen.symm, rfl, rfl, rfl, rfl,
          ha.split _, hpad, Nat.zero_le _⟩, hlen.symm, rfl⟩
    · rw [if_neg hpre]
      refine ⟨header.compression, _, d, s'.bytes.take header.compressedSize.toNat, out,
        ⟨if_neg hpre, rfl, rfl, ⟨havail, hname⟩, hmid, hsize.symm, hlen.symm, rfl, rfl, rfl, rfl,
          ha.split _, hpad, Nat.zero_le _⟩, fun _ => rfl, ?_⟩
      exact ⟨rfl, Nat.zero_le _⟩

theorem matched_chunkHeader (hs : Sim Δ r rest s) (hp : s.phase = .chunkHeader len) :
    Matched Δ rest s (r.chunkHeader D len) (s.chunkHeader D o len) := by
  obtain ⟨ht, hlen⟩ : r.AtTop rest s (.chunkHeader len) ∧ len ≤ USIZE_MAX := hs.inPhase hp
  have hopt := hs.options
  subst hopt
  unfold LinearReader.chunkHeader Spec.chunkHeader
  refine matched_load hs ht.ahead fun _ _ => ?_
  have hname : ((s.bytes.take MIN_CHUNK_HEADER_SIZE).drop 28).take 4 = (s.bytes.drop 28).take 4 := by
    rw [List.drop_take, List.take_take]
    rfl
  simp only [hname]
  refine matched_consume_top hs ht.ahead fun fileData ha _ => ?_
  generalize MIN_CHUNK_HEADER_SIZE + ofLe ((s.bytes.drop 28).take 4) = headerLen at ha ⊢
  rcases readLeFrom ChunkHeader.read (s.bytes.take headerLen) with e | ⟨header, cur⟩
  · exact .fail
  have hget := getDecompressor_spec hs.cached header.compression
  rcases havail : Spec.available D header.compression with e | _ <;> rw [havail] at hget
  · obtain ⟨ds, hget⟩ := hget
    simp only [havail, hget]
    exact .fail
  obtain ⟨decompressor, ds, hget, hplain, hpacked, hcached⟩ := hget
  simp only [havail, hget]
  split
  · exact .fail
  split
  · exact .fail
  cases hcheck : checkLen (len - headerLen - header.compressedSize.toNat)
      r.options.recordLengthLimit with
  | none => exact .fail
  | some padding =>
    have hpadding := checkLen_eq hcheck
    exact matched_enterChunk (r := { r with fileData, decompressors := ds }) rfl hs.running hcached
      ha header havail hplain hpacked (by omega)

/-! ## In an uncompressed chunk -/

theorem matched_validatingPlain (hs : Sim Δ r rest s) {remaining : Nat}
    (hp : s.phase = .validatingPlain remaining c) (fuel : Nat) :
    Matched Δ rest s (r.validatingChunkCrc D fuel) (s.validatingPlain o remaining c) := by
  obtain ⟨st, ht⟩ : ∃ st, r.InPlain rest s .validatingChunkCrc remaining c st := hs.inPhase hp
  have hopt := hs.options
  subst hopt
  unfold LinearReader.validatingChunkCrc Spec.validatingPlain
  simp only [ht.chunk, ht.plain, ht.remaining, ht.crc]
  cases hcheck : checkLen remaining r.options.recordLengthLimit with
  | none => exact .fail
  | some toLoad =>
    refine matched_load hs ht.ahead fun _ _ => ?_
    split
    · exact .fail
    · exact .again ⟨rfl, hs.running, hs.cached, st, rfl, rfl, ht.plain, ht.remaining, ht.hasher,
        ht.crc, ht.padding, ht.ahead, ht.empty⟩

theorem matched_plainChunk (hs : Sim Δ r rest s) {remaining : Nat}
    (hp : s.phase = .plainChunk remaining c) (fuel : Nat) :
    Matched Δ rest s (r.chunkRecord D fuel) (s.plainChunk o remaining c) := by
  obtain ⟨st, ht⟩ : ∃ st, r.InPlain rest s .chunkRecord remaining c st := hs.inPhase hp
  have hopt := hs.options
  subst hopt
  unfold LinearReader.chunkRecord LinearReader.plainChunkRecord Spec.plainChunk
  simp only [ht.chunk, ht.plain, ht.remaining]
  by_cases h0 : remaining = 0
  · rw [if_pos h0, if_pos h0]
    refine .again ⟨rfl, hs.running, hs.cached, st, [], rfl, rfl, ?_, ht.crc, ht.ahead, ht.empty,
      .inl ⟨ht.plain, ht.hasher⟩⟩
    rw [ht.padding, List.length_nil, Nat.zero_add]
  rw [if_neg h0, if_neg h0]
  refine matched_load hs ht.ahead fun _ _ => ?_
  rcases opcodeAndLen (s.bytes.take OPCODE_LEN_SIZE) with ⟨opcode, len⟩
  cases hcheck : checkLen len r.options.recordLengthLimit with
  | none => exact .fail
  | some n =>
    by_cases hbig : OPCODE_LEN_SIZE + n > USIZE_MAX
    · simp only [if_pos hbig]
      exact .panic
    simp only [if_neg hbig]
    refine matched_consume_top hs ht.ahead fun fileData ha _ => ?_
    split
    · exact .panic
    · refine .record ⟨rfl, hs.running, hs.cached, _, ht.state, rfl, rfl, rfl, ?_, ht.crc,
        ht.padding, ha, ht.empty⟩
      rw [← ht.hasher]
      rfl

/-! ## After the records of a chunk -/

theorem Cached.update {decompressors : String → Option δ} (hcached : Cached Δ decompressors)
    (hfresh : Δ.Fresh name d) (havail : Spec.available D name = .ok ())
    (hne : name ≠ "") : Cached Δ (Function.update decompressors name (some d)) := by
  intro name' d' h
  by_cases hn : name' = name
  · subst hn
    rw [Function.update_self] at h
    obtain rfl := Option.some.inj h
    exact ⟨hfresh, havail, hne⟩
  · rw [Function.update_of_ne hn] at h
    exact hcached name' d' h

theorem matched_checkChunkCrc (hopt : r.options = o) (hrun : r.atEof = false)
    (hcached : Cached Δ r.decompressors) {s' : Spec}
    (ha : Ahead r.fileData rest [] s'.bytes s'.hasher) (hempty : r.decompressedContent.unread = [])
    (crc : UInt32) (hasher : Option Hasher) :
    Matched Δ rest s (r.checkChunkCrc crc hasher)
      (match hasher with
      | none => .again { s' with phase := .fileRecord }
      | some hasher =>
          if crc ≠ 0 ∧ crc ≠ hasher.finalize then .fail (.badChunkCrc crc hasher.finalize)
          else .again { s' with phase := .fileRecord }) := by
  have hnext : Matched Δ rest s
      (.again { r with chunkState := none, currentlyReading := .fileRecord })
      (.again { s' with phase := .fileRecord }) :=
    .again ⟨hopt, hrun, hcached, rfl, rfl, ha, hempty⟩
  unfold LinearReader.checkChunkCrc
  rcases hasher with _ | hasher
  · exact hnext
  · simp only
    split
    · exact .fail
    · exact hnext

theorem matched_paddingAfterChunk (hs : Sim Δ r rest s) (hp : s.phase = .paddingAfterChunk c) :
    Matched Δ rest s (r.paddingAfterChunk D) (s.paddingAfterChunk c) := by
  obtain ⟨st, comp, ht⟩ : ∃ st comp, r.InPadding Δ rest s c st comp := hs.inPhase hp
  have hopt := hs.options
  subst hopt
  unfold LinearReader.paddingAfterChunk Spec.paddingAfterChunk
  simp only [ht.chunk]
  refine matched_consume hs ht.ahead ht.padding fun fileData ha _ => ?_
  rcases ht.hasher with ⟨hd, hh⟩ | ⟨d, name, hd, hh, havail, hne, hmid⟩
  · simp only [hd, hh, ht.crc]
    refine matched_checkChunkCrc ?_ ?_ ?_ ?_ ?_ c.crc c.hasher
    · rfl
    · exact hs.running
    · exact hs.cached
    · exact ha
    · exact ht.empty
  · obtain ⟨d', hreset, hname, hfresh⟩ := Δ.reset hmid
    simp only [hd, hreset, hh, ht.crc, hname]
    refine matched_checkChunkCrc ?_ ?_ ?_ ?_ ?_ c.crc c.hasher
    · rfl
    · exact hs.running
    · exact hs.cached.update hfresh havail hne
    · exact ha
    · exact ht.empty

/-! ## In a compressed chunk -/

/-- **`decompress!` in an intact chunk.**  It goes on with `n` bytes in the
decompressed buffer, or asks for more input, or the chunk ends before. -/
theorem decompress_spec {state : CurrentlyReading}
    (ht : r.InPacked Δ rest s state out c name st d comp pend)
    (hroom : r.decompressedContent.len < n → r.decompressedContent.start + n ≤ ISIZE_MAX) :
    ∃ N r' st' d' comp' pend', r'.InPacked Δ rest s state out c name st' d' comp' pend' ∧
      (r'.options = r.options ∧ r'.atEof = r.atEof ∧ r'.decompressors = r.decompressors) ∧
      st'.uncompressedLen = st.uncompressedLen ∧
      r'.decompressedContent.start = r.decompressedContent.start ∧
      r'.decompressedContent.len ≤ max r.decompressedContent.len n ∧
      (∃ w, pend = w ++ pend') ∧
      (((∀ fuel k, N ≤ fuel → r.decompress D fuel st d n k = k r' st' d') ∧
          n ≤ r'.decompressedContent.len) ∨
        (∃ m, (∀ fuel k, N ≤ fuel →
          r.decompress D fuel st d n k = .ret r' (some (.ok (.readRequest m)))) ∧ rest ≠ []) ∨
        ((∀ fuel k, N ≤ fuel →
          r.decompress D fuel st d n k = .ret r' (some (.error .unexpectedEoc))) ∧
          out.length < n)) := by
  have hi : Inflating Δ name rest s.bytes s.hasher (r.inflate st d) comp pend :=
    ⟨ht.mid, ht.compressed, ht.uncompressed, ht.ahead.bytes, ht.ahead.hasher⟩
  obtain ⟨N, res, s', comp', pend', hrun, hi', ⟨w, hw, hv⟩, hstart, hlen, hle, hcase⟩ :=
    decompressInner_spec hi hroom
  have hend := s'.destBuf.end_eq
  have hend₀ := r.decompressedContent.end_eq
  have htotal := ht.total
  have hend₁ := ht.room
  simp only [LinearReader.inflate] at hstart hlen hle hv hcase
  refine ⟨N, { r with
      fileData := s'.srcBuf
      decompressedContent := s'.destBuf
      chunkState := some { st with
        decompressor := some s'.decompressor
        compressedRemaining := s'.compressedRemaining
        uncompressedRemaining := s'.uncompressedRemaining } },
    _, s'.decompressor, comp', pend',
    ⟨ht.state, rfl, rfl, ht.known, hi'.mid, hi'.compressed, hi'.uncompressed, ?_, ?_, ht.crc,
      ht.padding, ⟨hi'.bytes, hi'.hasher⟩, ?_, ?_⟩,
    ⟨rfl, rfl, rfl⟩, rfl, hstart, hlen, ⟨w, hw⟩, ?_⟩
  · rw [ht.out, hw, hv.unread, List.append_assoc]
  · rw [hv.hasher, ht.hasher]
  · show st.paddingAfterCompressedData + s'.compressedRemaining ≤ _
    omega
  · show s'.destBuf.end_ ≤ _
    omega
  · have hol : out.length = r.decompressedContent.len + pend.length := by
      rw [ht.out, List.length_append, RwBuf.length_unread]
    rcases hcase with ⟨rfl, hdone⟩ | ⟨⟨m, rfl⟩, hrest⟩ | ⟨rfl, hshort⟩
    · refine .inl ⟨fun fuel k hf => ?_, hdone⟩
      simp only [LinearReader.decompress, hrun fuel hf]
      rw [if_neg (by omega)]
    · refine .inr (.inl ⟨m, fun fuel k hf => ?_, hrest⟩)
      simp only [LinearReader.decompress, hrun fuel hf]
    · refine .inr (.inr ⟨fun fuel k hf => ?_, by omega⟩)
      simp only [LinearReader.decompress, hrun fuel hf]

theorem decompress_panic (hlt : r.decompressedContent.len < n)
    (hroom : ISIZE_MAX < r.decompressedContent.start + n) (fuel : Nat)
    (k : LinearReader δ → ChunkState δ → δ → Turn δ) :
    r.decompress D fuel st d n k = .panic := by
  have hend := r.decompressedContent.end_eq
  have hres : r.decompressedContent.reserveExact (n - r.decompressedContent.len) = none :=
    RwBuf.reserveExact_of_lt (by omega)
  simp only [LinearReader.decompress, LinearReader.inflate, decompressInner, hres]
  rw [if_neg (by omega)]

theorem matched_validatingPacked_full (hs : Sim Δ r rest s)
    (ht : r.InPacked Δ rest s .validatingChunkCrc out c name st d comp pend)
    (hlen : st.uncompressedLen = out.length) (hstart : r.decompressedContent.start = 0)
    (hfull : out.length ≤ r.decompressedContent.len) (fuel : Nat) :
    Matched Δ rest s (r.validatingChunkCrc D fuel) (s.validatingPacked o out c) := by
  have hopt := hs.options
  subst hopt
  have hol : out.length = r.decompressedContent.len + pend.length := by
    rw [ht.out, List.length_append, RwBuf.length_unread]
  obtain rfl : pend = [] := List.length_eq_zero_iff.mp (by omega)
  have hout : out = r.decompressedContent.unread := by rw [ht.out, List.append_nil]
  have hroom := ht.room
  have hle : r.decompressedContent.len ≤ r.decompressedContent.end_ := Nat.sub_le _ _
  unfold LinearReader.validatingChunkCrc Spec.validatingPacked
  simp only [ht.chunk, ht.packed, hlen, ht.crc]
  cases hcheck : checkLen out.length r.options.recordLengthLimit with
  | none => exact .fail
  | some n =>
    have hn := checkLen_eq hcheck
    simp only
    rw [if_pos (show r.decompressedContent.len ≥ n by omega),
      if_neg (show ¬ out.length > ISIZE_MAX by omega), ← hout]
    split
    · exact .fail
    · refine .again ⟨rfl, hs.running, hs.cached, name, st, d, comp, [],
        ⟨rfl, rfl, ht.packed, ht.known, ht.mid, ht.compressed, ht.uncompressed, ht.out, ht.hasher,
          ht.crc, ht.padding, ht.ahead, ht.total, ht.room⟩, fun _ => hstart, rfl⟩

theorem validatingChunkCrc_full
    (ht : r.InPacked Δ rest s .validatingChunkCrc out c name st d comp pend)
    (hlen : st.uncompressedLen = out.length) (hfull : out.length ≤ r.decompressedContent.len)
    (fuel : Nat) :
    r.validatingChunkCrc D fuel = r.validatingChunkCrc D 0 := by
  unfold LinearReader.validatingChunkCrc
  simp only [ht.chunk, ht.packed, hlen]
  cases hcheck : checkLen out.length r.options.recordLengthLimit with
  | none => rfl
  | some n =>
    have hn := checkLen_eq hcheck
    simp only
    rw [if_pos (show r.decompressedContent.len ≥ n by omega),
      if_pos (show r.decompressedContent.len ≥ n by omega)]

theorem matched_validatingPacked (hs : Sim Δ r rest s) (hp : s.phase = .validatingPacked out c) :
    ∃ N T, (∀ fuel, N ≤ fuel → r.validatingChunkCrc D fuel = T) ∧
      Matched Δ rest s T (s.validatingPacked o out c) := by
  obtain ⟨name, st, d, comp, pend, ht, hlen, hstart⟩ := hs.inPhase hp
  by_cases hfull : out.length ≤ r.decompressedContent.len
  · exact ⟨0, _, fun fuel _ => validatingChunkCrc_full ht hlen hfull fuel,
      matched_validatingPacked_full hs ht hlen hstart hfull 0⟩
  have hopt := hs.options
  subst hopt
  cases hcheck : checkLen out.length r.options.recordLengthLimit with
  | none =>
    refine ⟨0, r.fail (.chunkTooLarge out.length), fun fuel _ => ?_, ?_⟩
    · simp only [LinearReader.validatingChunkCrc, ht.chunk, ht.packed, hlen, hcheck]
    · simp only [Spec.validatingPacked, hcheck]
      exact .fail
  | some n =>
    obtain rfl := checkLen_eq hcheck
    have hturn : ∀ fuel, r.validatingChunkCrc D fuel =
        r.decompress D fuel st d out.length fun r _ _ => .again r := by
      intro fuel
      simp only [LinearReader.validatingChunkCrc, ht.chunk, ht.packed, hlen, hcheck]
      rw [if_neg hfull]
    by_cases hbig : out.length > ISIZE_MAX
    · refine ⟨0, .panic, fun fuel _ => ?_, ?_⟩
      · rw [hturn, decompress_panic (by omega) (by omega)]
      · simp only [Spec.validatingPacked, hcheck, if_pos hbig]
        exact .panic
    obtain ⟨N, r', st', d', comp', pend', ht', ⟨ho, he, hd⟩, hlen', hstart', -, -, hcase⟩ :=
      decompress_spec ht (n := out.length) (fun _ => by omega)
    have hs' : Sim Δ r' rest s := by
      refine ⟨ho, he.trans hs.running, by rw [hd]; exact hs.cached, ?_⟩
      rw [hp]
      exact ⟨name, st', d', comp', pend', ht', hlen'.trans hlen, hstart'.trans hstart⟩
    rcases hcase with ⟨hrun, hfull'⟩ | ⟨m, hrun, hrest⟩ | ⟨-, hshort⟩
    · -- the buffer is full now, and the next turn checks the CRC
      refine ⟨N, .again r', fun fuel hf => by rw [hturn, hrun _ _ hf], ?_⟩
      refine .once hs'.running (N := 0) (fun fuel _ => ?_)
        (matched_validatingPacked_full hs' ht' (hlen'.trans hlen) (hstart'.trans hstart) hfull' 0)
      rw [LinearReader.turn, ht'.state]
      exact validatingChunkCrc_full ht' (hlen'.trans hlen) hfull' fuel
    · exact ⟨N, _, fun fuel hf => by rw [hturn, hrun _ _ hf], .request hs' fun h => absurd h hrest⟩
    · omega

theorem InPhase.packedChunk {r' : LinearReader δ} {st' : ChunkState δ} {d' : δ}
    {comp' pend' : Bytes} (ht' : r'.InPacked Δ rest s .chunkRecord out c name st' d' comp' pend')
    (hstart : r'.decompressedContent.start = base) (hsuffix : ∃ w, pend = w ++ pend')
    (hval : if validated then pend = [] else base = 0)
    (hlen : validated = false → r'.decompressedContent.len ≤
      OPCODE_LEN_SIZE + (opcodeAndLen (out.take OPCODE_LEN_SIZE)).2) :
    r'.InPhase Δ rest s (.packedChunk out base validated c) := by
  refine ⟨name, st', d', comp', pend', ht', fun _ => hstart, ?_⟩
  cases validated with
  | true =>
    obtain ⟨w, hw⟩ := hsuffix
    rw [if_pos rfl] at hval ⊢
    rw [hval] at hw
    exact (List.append_eq_nil_iff.mp hw.symm).2
  | false =>
    rw [if_neg (by decide)] at hval ⊢
    exact ⟨hval, hlen rfl⟩

theorem matched_yieldPacked (hs : Sim Δ r rest s) {opcode : UInt8}
    (ht : r.InPacked Δ rest s .chunkRecord out c name st d comp pend)
    (hstart : r.decompressedContent.start = base)
    (hfull : OPCODE_LEN_SIZE + len ≤ r.decompressedContent.len)
    (hval : if validated then pend = [] else base = 0)
    (hlen : validated = false → r.decompressedContent.len ≤ OPCODE_LEN_SIZE + len) :
    Matched Δ rest s (r.yieldPacked opcode len)
      (.record opcode ((out.take (OPCODE_LEN_SIZE + len)).drop OPCODE_LEN_SIZE)
        { s with
          phase := .packedChunk (out.drop (OPCODE_LEN_SIZE + len))
            (if validated then base + (OPCODE_LEN_SIZE + len) else 0) validated
            { c with hasher := Spec.absorb c.hasher (out.take (OPCODE_LEN_SIZE + len)) } }) := by
  obtain ⟨b₁, hread, hv₁, -, hstart₁, hend₁⟩ :=
    RwBuf.markRead_of_le (b := r.decompressedContent) (n := OPCODE_LEN_SIZE) (by omega)
  have hlen₁ : b₁.len = r.decompressedContent.len - OPCODE_LEN_SIZE := by
    rw [hv₁.len, List.length_drop, RwBuf.length_unread]
  obtain ⟨b₂, hcons, hv₂, -, hstart₂, hend₂⟩ :=
    RwBuf.consume_of_le (b := b₁) (n := len) (by omega)
  have htake : out.take (OPCODE_LEN_SIZE + len) =
      r.decompressedContent.unread.take (OPCODE_LEN_SIZE + len) := by
    rw [ht.out, List.take_append_of_le_length (by rw [RwBuf.length_unread]; exact hfull)]
  have hdrop : out.drop (OPCODE_LEN_SIZE + len) =
      r.decompressedContent.unread.drop (OPCODE_LEN_SIZE + len) ++ pend := by
    rw [ht.out, List.drop_append_of_le_length (by rw [RwBuf.length_unread]; exact hfull)]
  have hdata : b₁.unread.take len = (out.take (OPCODE_LEN_SIZE + len)).drop OPCODE_LEN_SIZE := by
    rw [hv₁.unread, htake, List.drop_take, Nat.add_sub_cancel_left]
  have hunread : b₂.unread = r.decompressedContent.unread.drop (OPCODE_LEN_SIZE + len) := by
    rw [hv₂.unread, hv₁.unread, List.drop_drop]
  have hlen₂ : b₂.len = r.decompressedContent.len - (OPCODE_LEN_SIZE + len) := by
    rw [← RwBuf.length_unread, hunread, List.length_drop, RwBuf.length_unread]
  have hhash : b₂.hasher = Spec.absorb c.hasher (out.take (OPCODE_LEN_SIZE + len)) := by
    rw [hv₂.hasher, hv₁.hasher, hv₁.unread, htake, List.take_add, ← ht.hasher]
    exact absorb_append _ _ _
  simp only [LinearReader.yieldPacked, hread, hcons, hdata]
  refine .record ⟨hs.options, hs.running, hs.cached, name, st, d, comp, pend,
    ⟨ht.state, ht.chunk, ht.packed, ht.known, ht.mid, ht.compressed, ht.uncompressed, ?_, hhash,
      ht.crc, ht.padding, ht.ahead, ht.total, ?_⟩, ?_, ?_⟩
  · rw [hdrop, hunread]
  · show b₂.end_ ≤ _
    rw [hend₂, hend₁]
    exact ht.room
  · intro hne
    cases validated with
    | true =>
      show b₂.start = base + (OPCODE_LEN_SIZE + len)
      omega
    | false =>
      have hle := hlen rfl
      exact absurd (show b₂.len = 0 by omega) hne
  · cases validated with
    | true => exact hval
    | false =>
      have hle := hlen rfl
      refine ⟨rfl, ?_⟩
      show b₂.len ≤ _
      omega

theorem matched_nextPacked (hs : Sim Δ r rest s) (hp : s.phase = .packedChunk out base validated c)
    (ht : r.InPacked Δ rest s .chunkRecord out c name st d comp pend) (hne : out ≠ [])
    (hstart : r.decompressedContent.start = base) (hval : if validated then pend = [] else base = 0)
    (hlen : validated = false → r.decompressedContent.len ≤
      OPCODE_LEN_SIZE + (opcodeAndLen (out.take OPCODE_LEN_SIZE)).2) :
    ∃ N T, (∀ fuel, N ≤ fuel → r.nextPacked D fuel st d = T) ∧
      Matched Δ rest s T (s.packedChunk o out base validated c) := by
  have hopt := hs.options
  subst hopt
  have hend := r.decompressedContent.end_eq
  have hroom := ht.room
  unfold Spec.packedChunk
  rw [if_neg hne]
  by_cases hbig : base + OPCODE_LEN_SIZE > ISIZE_MAX
  · exact ⟨0, .panic, fun fuel _ => decompress_panic (by omega) (by omega) _ _,
      by rw [if_pos hbig]; exact .panic⟩
  rw [if_neg hbig]
  obtain ⟨N, r₁, st₁, d₁, comp₁, pend₁, ht₁, ⟨ho₁, he₁, hd₁⟩, -, hstart₁, hlen₁, hsuf₁, hcase⟩ :=
    decompress_spec ht (n := OPCODE_LEN_SIZE) (fun _ => by omega)
  have hs₁ : Sim Δ r₁ rest s := by
    refine ⟨ho₁, he₁.trans hs.running, by rw [hd₁]; exact hs.cached, ?_⟩
    rw [hp]
    refine InPhase.packedChunk ht₁ (hstart₁.trans hstart) hsuf₁ hval fun hv => ?_
    have := hlen hv
    omega
  rcases hcase with ⟨hrun, hfull⟩ | ⟨m, hrun, hrest⟩ | ⟨hrun, hshort⟩
  rotate_left
  · exact ⟨N, _, fun fuel hf => hrun _ _ hf, .request hs₁ fun h => absurd h hrest⟩
  · exact ⟨N, _, fun fuel hf => hrun _ _ hf, by rw [if_pos hshort]; exact .fail⟩
  have hol : out.length = r₁.decompressedContent.len + pend₁.length := by
    rw [ht₁.out, List.length_append, RwBuf.length_unread]
  rw [if_neg (by omega)]
  have htake : r₁.decompressedContent.unread.take OPCODE_LEN_SIZE = out.take OPCODE_LEN_SIZE := by
    rw [ht₁.out, List.take_append_of_le_length (by rw [RwBuf.length_unread]; exact hfull)]
  have hturn : ∀ fuel, N ≤ fuel → r.nextPacked D fuel st d = _ := fun fuel hf => hrun fuel _ hf
  simp only [htake, ho₁] at hturn
  rcases hol : opcodeAndLen (out.take OPCODE_LEN_SIZE) with ⟨opcode, len⟩
  simp only [hol] at hturn hlen
  cases hcheck : checkLen len r.options.recordLengthLimit with
  | none =>
    simp only [hcheck] at hturn ⊢
    exact ⟨N, _, hturn, .fail⟩
  | some n =>
    obtain rfl := checkLen_eq hcheck
    simp only [hcheck] at hturn ⊢
    by_cases husize : OPCODE_LEN_SIZE + n > USIZE_MAX
    · simp only [if_pos husize] at hturn ⊢
      exact ⟨N, _, hturn, .panic⟩
    simp only [if_neg husize] at hturn ⊢
    have hend₁ := r₁.decompressedContent.end_eq
    have hroom₁ := ht₁.room
    by_cases hbig : base + (OPCODE_LEN_SIZE + n) > ISIZE_MAX
    · refine ⟨N, .panic, fun fuel hf => ?_, by rw [if_pos hbig]; exact .panic⟩
      rw [hturn fuel hf]
      exact decompress_panic (by omega) (by omega) _ _
    rw [if_neg hbig]
    obtain ⟨N₂, r₂, st₂, d₂, comp₂, pend₂, ht₂, ⟨ho₂, he₂, hd₂⟩, -, hstart₂, hlen₂, hsuf₂, hcase⟩ :=
      decompress_spec ht₁ (n := OPCODE_LEN_SIZE + n) (fun _ => by omega)
    have hsuf : ∃ w, pend = w ++ pend₂ := by
      obtain ⟨w₁, hw₁⟩ := hsuf₁
      obtain ⟨w₂, hw₂⟩ := hsuf₂
      exact ⟨w₁ ++ w₂, by rw [hw₁, hw₂, List.append_assoc]⟩
    have hbound : validated = false → r₂.decompressedContent.len ≤ OPCODE_LEN_SIZE + n := by
      intro hv
      have := hlen hv
      omega
    have hs₂ : Sim Δ r₂ rest s := by
      refine ⟨ho₂.trans ho₁, he₂.trans hs₁.running, by rw [hd₂, hd₁]; exact hs.cached, ?_⟩
      rw [hp]
      exact InPhase.packedChunk ht₂ (hstart₂.trans (hstart₁.trans hstart)) hsuf hval
        (by rw [hol]; exact hbound)
    rcases hcase with ⟨hrun₂, hfull₂⟩ | ⟨m, hrun₂, hrest⟩ | ⟨hrun₂, hshort⟩
    · have hol₂ : out.length = r₂.decompressedContent.len + pend₂.length := by
        rw [ht₂.out, List.length_append, RwBuf.length_unread]
      rw [if_neg (by omega)]
      refine ⟨max N N₂, r₂.yieldPacked opcode n, fun fuel hf => ?_, ?_⟩
      · rw [hturn fuel (by omega), hrun₂ _ _ (by omega)]
      · refine matched_yieldPacked hs₂ ht₂ (hstart₂.trans (hstart₁.trans hstart)) hfull₂ ?_ hbound
        cases validated with
        | true =>
          obtain ⟨w, hw⟩ := hsuf
          rw [if_pos rfl] at hval ⊢
          rw [hval] at hw
          exact (List.append_eq_nil_iff.mp hw.symm).2
        | false => exact hval
    · refine ⟨max N N₂, _, fun fuel hf => ?_, .request (n := m) hs₂ fun h => absurd h hrest⟩
      rw [hturn fuel (by omega), hrun₂ _ _ (by omega)]
    · refine ⟨max N N₂, _, fun fuel hf => ?_, by rw [if_pos hshort]; exact .fail (r := r₂)⟩
      rw [hturn fuel (by omega), hrun₂ _ _ (by omega)]

/-- Clearing an empty buffer changes nothing but the cursors, and puts the read
cursor at the base. -/
theorem InPacked.clearDecompressed {state : CurrentlyReading}
    (ht : r.InPacked Δ rest s state out c name st d comp pend) :
    r.clearDecompressed.InPacked Δ rest s state out c name st d comp pend ∧
      r.clearDecompressed.decompressedContent.len = r.decompressedContent.len ∧
      r.clearDecompressed.options = r.options ∧ r.clearDecompressed.atEof = r.atEof ∧
      r.clearDecompressed.decompressors = r.decompressors ∧
      ∀ {base}, (r.decompressedContent.len ≠ 0 → r.decompressedContent.start = base) →
        (r.decompressedContent.len = 0 → base = 0) →
        r.clearDecompressed.decompressedContent.start = base := by
  unfold LinearReader.clearDecompressed
  split
  · rename_i h0
    have hnil : r.decompressedContent.unread = [] :=
      List.length_eq_zero_iff.mp (by rw [RwBuf.length_unread, h0])
    refine ⟨⟨ht.state, ht.chunk, ht.packed, ht.known, ht.mid, ht.compressed, ht.uncompressed, ?_,
      ht.hasher, ht.crc, ht.padding, ht.ahead, ht.total, Nat.zero_le _⟩, h0.symm, rfl, rfl, rfl,
      fun _ hb => (hb h0).symm⟩
    rw [ht.out, hnil]
    rfl
  · rename_i h0
    exact ⟨ht, rfl, rfl, rfl, rfl, fun hb _ => hb h0⟩

theorem matched_packedChunk (hs : Sim Δ r rest s)
    (hp : s.phase = .packedChunk out base validated c) :
    ∃ N T, (∀ fuel, N ≤ fuel → r.chunkRecord D fuel = T) ∧
      Matched Δ rest s T (s.packedChunk o out base validated c) := by
  obtain ⟨name, st, d, comp, pend, ht, hstart, hval⟩ := hs.inPhase hp
  obtain ⟨ht₀, hlen₀, ho, he, hd, hbase⟩ := InPacked.clearDecompressed ht
  have hturn : ∀ fuel, r.chunkRecord D fuel = r.packedChunkRecord D fuel st d := by
    intro fuel
    simp only [LinearReader.chunkRecord, ht.chunk, ht.packed]
  have hol : out.length = r.decompressedContent.len + pend.length := by
    rw [ht.out, List.length_append, RwBuf.length_unread]
  by_cases hnil : out = []
  · have hpend : pend = [] := List.length_eq_zero_iff.mp (by rw [hnil] at hol; simp at hol; omega)
    have hlen : r.decompressedContent.len = 0 := by rw [hnil] at hol; simp at hol; omega
    subst hpend
    have hcheck : checkLen st.compressedRemaining r.clearDecompressed.options.recordLengthLimit =
        some comp.length := by
      rw [ht.compressed, ho, hs.options]
      exact checkLen_of_le fun l hl => Δ.tail ht.mid hl
    have htotal := ht.total
    rw [ht.compressed] at htotal
    refine ⟨0, .again { r.clearDecompressed with
        currentlyReading := .paddingAfterChunk
        chunkState := some { st with
          paddingAfterCompressedData := st.paddingAfterCompressedData + comp.length
          compressedRemaining := 0 } }, fun fuel _ => ?_, ?_⟩
    · rw [hturn, LinearReader.packedChunkRecord]
      simp only [hcheck]
      rw [if_pos ⟨ht.uncompressed, hlen₀.trans hlen⟩, if_neg (by omega)]
    · rw [Spec.packedChunk, if_pos hnil]
      refine .again ⟨ho.trans hs.options, he.trans hs.running, by rw [hd]; exact hs.cached,
        _, comp, ⟨rfl, rfl, ?_, ht.crc, ht₀.ahead, ?_, .inr ⟨d, name, ht.packed, ht₀.hasher,
          ht.known.1, ht.known.2, ht.mid⟩⟩⟩
      · show st.paddingAfterCompressedData + comp.length = _
        rw [ht.padding, Nat.add_comm]
      · exact List.length_eq_zero_iff.mp (by rw [RwBuf.length_unread, hlen₀, hlen])
  · have hmore : ¬ (st.uncompressedRemaining = 0 ∧
        r.clearDecompressed.decompressedContent.len = 0) := by
      rw [ht.uncompressed, hlen₀]
      rintro ⟨h1, h2⟩
      exact hnil (List.length_eq_zero_iff.mp (by omega))
    have hnext : ∀ fuel, r.chunkRecord D fuel = r.clearDecompressed.nextPacked D fuel st d := by
      intro fuel
      rw [hturn, LinearReader.packedChunkRecord]
      exact if_neg hmore
    have hzero : r.decompressedContent.len = 0 → base = 0 := by
      intro h0
      cases validated with
      | true =>
        have hp0 : pend = [] := hval
        rw [hp0] at hol
        exact absurd (List.length_eq_zero_iff.mp (by simpa [h0] using hol)) hnil
      | false => exact hval.1
    have hs₀ : Sim Δ r.clearDecompressed rest s := by
      refine ⟨ho.trans hs.options, he.trans hs.running, by rw [hd]; exact hs.cached, ?_⟩
      rw [hp]
      refine ⟨name, st, d, comp, pend, ht₀, fun _ => hbase hstart hzero, ?_⟩
      rw [hlen₀]
      exact hval
    simp only [hnext]
    refine matched_nextPacked hs₀ hp ht₀ hnil (hbase hstart hzero) ?_ ?_
    · cases validated with
      | true => exact hval
      | false => exact hval.1
    · rintro rfl
      rw [hlen₀]
      exact hval.2

/-! ## One turn -/

/-- **The step lemma.**  A turn of the streaming reader is the same turn of the
reader that has everything, or a request for more input. -/
theorem sim_turn (hs : Sim Δ r rest s) :
    ∃ N T, (∀ fuel, N ≤ fuel → r.turn D fuel = T) ∧ Matched Δ rest s T (s.turn D o) := by
  unfold Spec.turn
  split <;> rename_i hp
  · have ht : r.AtTop rest s .startMagic := hs.inPhase hp
    exact ⟨0, _, fun fuel _ => by rw [LinearReader.turn, ht.state], matched_startMagic hs hp⟩
  · have ht : r.AtTop rest s .fileRecord := hs.inPhase hp
    exact ⟨0, _, fun fuel _ => by rw [LinearReader.turn, ht.state], matched_fileRecord hs hp⟩
  · have ht : r.AtTop rest s (.dataEnd _ _) := hs.inPhase hp
    exact ⟨0, _, fun fuel _ => by rw [LinearReader.turn, ht.state], matched_dataEnd hs hp⟩
  · have ht : r.AtTop rest s (.footer _ _) := hs.inPhase hp
    exact ⟨0, _, fun fuel _ => by rw [LinearReader.turn, ht.state], matched_footer hs hp⟩
  · have ht : r.AtTop rest s (.chunkHeader _) := (hs.inPhase hp).1
    exact ⟨0, _, fun fuel _ => by rw [LinearReader.turn, ht.state], matched_chunkHeader hs hp⟩
  · obtain ⟨st, ht⟩ := hs.inPhase hp
    refine ⟨0, r.validatingChunkCrc D 0, fun fuel _ => ?_, matched_validatingPlain hs hp 0⟩
    rw [LinearReader.turn, ht.state]
    simp only [LinearReader.validatingChunkCrc, ht.chunk, ht.plain]
  · obtain ⟨name, st, d, comp, pend, ht, -⟩ := hs.inPhase hp
    obtain ⟨N, T, hT, hm⟩ := matched_validatingPacked hs hp
    exact ⟨N, T, fun fuel hf => by rw [LinearReader.turn, ht.state]; exact hT fuel hf, hm⟩
  · obtain ⟨st, ht⟩ := hs.inPhase hp
    refine ⟨0, r.chunkRecord D 0, fun fuel _ => ?_, matched_plainChunk hs hp 0⟩
    rw [LinearReader.turn, ht.state]
    simp only [LinearReader.chunkRecord, ht.chunk, ht.plain]
  · obtain ⟨name, st, d, comp, pend, ht, -⟩ := hs.inPhase hp
    obtain ⟨N, T, hT, hm⟩ := matched_packedChunk hs hp
    exact ⟨N, T, fun fuel hf => by rw [LinearReader.turn, ht.state]; exact hT fuel hf, hm⟩
  · obtain ⟨st, comp, ht⟩ := hs.inPhase hp
    exact ⟨0, _, fun fuel _ => by rw [LinearReader.turn, ht.state], matched_paddingAfterChunk hs hp⟩
  · have ht : r.AtTop rest s .endMagic := hs.inPhase hp
    exact ⟨0, _, fun fuel _ => by rw [LinearReader.turn, ht.state], matched_endMagic hs hp⟩
  · have ht : r.AtTop rest s .afterEndMagic := hs.inPhase hp
    exact ⟨0, _, fun fuel _ => by rw [LinearReader.turn, ht.state], matched_afterEndMagic hs hp⟩

end

end Mcap

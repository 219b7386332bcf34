import Mcap.RwBuf

/-! # The streaming reader

`LinearReader` of `sans_io/linear_reader.rs`: a state machine that is fed bytes
in pieces and yields records.  `turn` is one iteration of the loop inside
`next_event`, one function per state; `nextEvent` iterates it until it returns.

Lengths are natural numbers below `2 ^ 64`.  Additions and subtractions on them
are checked, as in a debug build: an overflow, an underflow, a failed assertion
and an index out of range are all the result `panic`.  The inner loop of
`decompress_inner` need not end, so it takes fuel, and `spin` says that the fuel
ran out.

A decompressor is code outside the repository.  `Decompressor δ` is the trait of
`decompressor.rs` for boxed decompressors `δ`, with the two constructors
`get_decompressor` calls and the two facts the callers rely on: it consumes no
more than it is given and writes no more than it has room for.
-/
namespace Mcap

/-- `DecompressResult`, with the bytes written in place of their number. -/
structure DecompressResult where
  consumed : Nat
  wrote : Bytes

/-- The `Decompressor` trait, for boxed decompressors `δ`. -/
structure Decompressor (δ : Type) where
  /-- `ZstdDecoder::new`. -/
  newZstd : δ
  /-- `Lz4Decoder::new`. -/
  newLz4 : Except McapError δ
  nextReadSize : δ → Nat
  /-- `decompress(src, dst)` with `dst.len() = n`. -/
  decompress : δ → Bytes → Nat → δ × Except McapError DecompressResult
  reset : δ → δ × Except McapError Unit
  name : δ → String
  consumed_le : ∀ {d src n d' res}, decompress d src n = (d', .ok res) → res.consumed ≤ src.length
  wrote_le : ∀ {d src n d' res}, decompress d src n = (d', .ok res) → res.wrote.length ≤ n

/-- `CurrentlyReading`. -/
inductive CurrentlyReading
  | startMagic
  | fileRecord
  | chunkHeader (len : Nat)
  | footer (len : Nat) (hasher : Option Hasher)
  | dataEnd (len : Nat) (calculated : Option UInt32)
  | validatingChunkCrc
  | chunkRecord
  | paddingAfterChunk
  | endMagic
  | afterEndMagic
deriving DecidableEq

/-- `ChunkState`. -/
structure ChunkState (δ : Type) where
  decompressor : Option δ
  uncompressedDataHasher : Option Hasher
  compressedRemaining : Nat
  uncompressedRemaining : Nat
  uncompressedLen : Nat
  paddingAfterCompressedData : Nat
  crc : UInt32

/-- MCAP records start with an opcode (1 byte) and a 64-bit length (8 bytes). -/
def OPCODE_LEN_SIZE : Nat := 1 + 8

/-- `LinearReaderOptions`. -/
structure LinearReaderOptions where
  skipStartMagic : Bool := false
  skipEndMagic : Bool := false
  checkFinishesAfterEndMagic : Bool := false
  emitChunks : Bool := false
  validateChunkCrcs : Bool := false
  prevalidateChunkCrcs : Bool := false
  validateDataSectionCrc : Bool := false
  validateSummarySectionCrc : Bool := false
  recordLengthLimit : Option Nat := none
deriving DecidableEq

/-- `LinearReader`. -/
structure LinearReader (δ : Type) where
  currentlyReading : CurrentlyReading
  chunkState : Option (ChunkState δ)
  fileData : RwBuf
  decompressedContent : RwBuf
  decompressors : String → Option δ
  options : LinearReaderOptions
  atEof : Bool

/-- `LinearReadEvent`. -/
inductive LinearReadEvent
  | readRequest (n : Nat)
  | record (opcode : UInt8) (data : Bytes)
deriving DecidableEq

/-- What `next_event` returns: nothing at the end, an error, or an event. -/
abbrev NextEvent := Option (Except McapError LinearReadEvent)

/-- The result of `next_event`: it returns, panics, or has not ended yet. -/
inductive Outcome (δ : Type)
  | ret (r : LinearReader δ) (ev : NextEvent)
  | panic
  | spin

/-- The result of one turn of the loop: go round again, or leave it. -/
inductive Turn (δ : Type)
  | again (r : LinearReader δ)
  | ret (r : LinearReader δ) (ev : NextEvent)
  | panic
  | spin

/-! ## `decompress_inner` -/

/-- The arguments `decompress_inner` updates in place. -/
structure Inflate (δ : Type) where
  decompressor : δ
  srcBuf : RwBuf
  destBuf : RwBuf
  compressedRemaining : Nat
  uncompressedRemaining : Nat

/-- The result of `decompress_inner`: enough bytes, more input needed, an error,
a panic, or no end yet. -/
inductive Inflated
  | done
  | need (n : Nat)
  | err (e : McapError)
  | panic
  | spin
deriving DecidableEq

variable {δ : Type} (D : Decompressor δ)

/-- The loop of `decompress_inner`. -/
def decompressLoop : Nat → Inflate δ → Inflated × Inflate δ
  | 0, s => (.spin, s)
  | fuel + 1, s =>
      let need := D.nextReadSize s.decompressor
      let have_ := s.srcBuf.len
      if need > have_ then (.need (need - have_), s)
      else if s.destBuf.unwritten.length = 0 then (.done, s)
      else if s.uncompressedRemaining = 0 then (.err .unexpectedEoc, s)
      else
        let src := s.srcBuf.unread.take (min have_ s.compressedRemaining)
        match D.decompress s.decompressor src s.destBuf.unwritten.length with
        | (d, .error e) => (.err e, { s with decompressor := d })
        | (d, .ok res) =>
            match s.srcBuf.markRead res.consumed,
              (s.destBuf.fill res.wrote).markWritten res.wrote.length with
            | some srcBuf, some destBuf =>
                if res.wrote.length > s.uncompressedRemaining then (.panic, s)
                else decompressLoop fuel
                  { decompressor := d
                    srcBuf
                    destBuf
                    compressedRemaining := s.compressedRemaining - res.consumed
                    uncompressedRemaining := s.uncompressedRemaining - res.wrote.length }
            | _, _ => (.panic, s)

/-- `decompress_inner`: have at least `n` bytes in the destination buffer. -/
def decompressInner (fuel n : Nat) (s : Inflate δ) : Inflated × Inflate δ :=
  if n - s.destBuf.len = 0 then (.done, s)
  else
    match s.destBuf.reserveExact (n - s.destBuf.len) with
    | none => (.panic, s)
    | some destBuf => decompressLoop D fuel { s with destBuf }

/-- `get_decompressor`: a decompressor kept from an earlier chunk, or a new one. -/
def getDecompressor (decompressors : String → Option δ) (name : String) :
    Except McapError (Option δ) × (String → Option δ) :=
  match decompressors name with
  | some d => (.ok (some d), Function.update decompressors name none)
  | none =>
      (if name = "zstd" then .ok (some D.newZstd)
        else if name = "lz4" then some <$> D.newLz4
        else if name = "" then .ok none
        else .error (.unsupportedCompression name),
       decompressors)

namespace LinearReader

/-! ## Construction and feeding -/

/-- `new_with_options`. -/
def newWithOptions (options : LinearReaderOptions) : LinearReader δ where
  currentlyReading := if options.skipStartMagic then .fileRecord else .startMagic
  chunkState := none
  fileData := RwBuf.new options.validateDataSectionCrc
  decompressedContent :=
    RwBuf.new (options.validateChunkCrcs && !options.prevalidateChunkCrcs)
  decompressors := fun _ => none
  options
  atEof := false

/-- A caller's answer to a read request: `insert(n)`, then `piece` stored at the
front of the slice, then `notify_read(piece.len())`.  `none` is the panic of
`notify_read`, when `piece` is longer than `n`. -/
def feed (r : LinearReader δ) (n : Nat) (piece : Bytes) : Option (LinearReader δ) :=
  match ((r.fileData.tailWithSize n).fill piece).markWritten piece.length with
  | none => none
  | some fileData =>
      if piece.length ≤ n then
        some { r with fileData, atEof := r.atEof || piece.length = 0 }
      else none

/-! ## One turn of the loop -/

/-- Return from `next_event`. -/
def leave (r : LinearReader δ) (ev : NextEvent) : Turn δ := .ret r ev

/-- Return an error. -/
def fail (r : LinearReader δ) (e : McapError) : Turn δ := .ret r (some (.error e))

/-- `load!`: the next `n` bytes of the file, or a request for the missing ones. -/
def load (r : LinearReader δ) (n : Nat) (k : Bytes → Turn δ) : Turn δ :=
  if r.fileData.len < n then .ret r (some (.ok (.readRequest (n - r.fileData.len))))
  else k (r.fileData.unread.take n)

/-- `consume!`: like `load!`, and mark the bytes read. -/
def consume (r : LinearReader δ) (n : Nat) (k : Bytes → LinearReader δ → Turn δ) : Turn δ :=
  if r.fileData.len < n then .ret r (some (.ok (.readRequest (n - r.fileData.len))))
  else
    match r.fileData.consume n with
    | none => .panic
    | some (data, fileData) => k data { r with fileData }

/-- What `decompress_inner` works on, for the chunk state `st` whose decompressor is
`d`. -/
def inflate (r : LinearReader δ) (st : ChunkState δ) (d : δ) : Inflate δ where
  decompressor := d
  srcBuf := r.fileData
  destBuf := r.decompressedContent
  compressedRemaining := st.compressedRemaining
  uncompressedRemaining := st.uncompressedRemaining

/-- `decompress!`: have `n` bytes in the decompressed buffer, for the chunk state
`st` whose decompressor is `d`. -/
def decompress (fuel : Nat) (r : LinearReader δ) (st : ChunkState δ) (d : δ) (n : Nat)
    (k : LinearReader δ → ChunkState δ → δ → Turn δ) : Turn δ :=
  let (res, s) := decompressInner D fuel n (r.inflate st d)
  let st' := { st with
    decompressor := some s.decompressor
    compressedRemaining := s.compressedRemaining
    uncompressedRemaining := s.uncompressedRemaining }
  let r' := { r with
    fileData := s.srcBuf, decompressedContent := s.destBuf, chunkState := some st' }
  match res with
  | .done => if r'.decompressedContent.len < n then .panic else k r' st' s.decompressor
  | .need n => .ret r' (some (.ok (.readRequest n)))
  | .err e => .ret r' (some (.error e))
  | .panic => .panic
  | .spin => .spin

/-- The opcode and the length in front of a record. -/
def opcodeAndLen (buf : Bytes) : UInt8 × Nat := (buf.headD 0, ofLe (buf.drop 1))

/-- `StartMagic`. -/
def startMagic (r : LinearReader δ) : Turn δ :=
  if r.options.skipStartMagic then .again { r with currentlyReading := .fileRecord }
  else
    r.consume MAGIC.length fun data r =>
      if data ≠ MAGIC then r.fail .badMagic
      else .again { r with currentlyReading := .fileRecord }

/-- `FileRecord`. -/
def fileRecord (r : LinearReader δ) : Turn δ :=
  r.load OPCODE_LEN_SIZE fun buf =>
    let (opcode, len) := opcodeAndLen buf
    if opcode = op.CHUNK ∧ !r.options.emitChunks then
      match r.fileData.markRead OPCODE_LEN_SIZE with
      | none => .panic
      | some fileData => .again { r with fileData, currentlyReading := .chunkHeader len }
    else if opcode = op.DATA_END then
      -- the CRC covers everything up to this record, so the hasher is taken first
      let calculated := r.fileData.hasher.map Hasher.finalize
      match (r.fileData.setHasher none).markRead OPCODE_LEN_SIZE with
      | none => .panic
      | some fileData => .again { r with fileData, currentlyReading := .dataEnd len calculated }
    else if opcode = op.FOOTER then
      match r.fileData.markRead OPCODE_LEN_SIZE with
      | none => .panic
      | some fileData =>
          .again { r with
            fileData := fileData.setHasher none
            currentlyReading := .footer len fileData.hasher }
    else
      match checkLen len r.options.recordLengthLimit with
      | none => r.fail (.recordTooLarge opcode len)
      | some len =>
          if OPCODE_LEN_SIZE + len > USIZE_MAX then .panic
          else
            r.consume (OPCODE_LEN_SIZE + len) fun data r =>
              r.leave (some (.ok (.record opcode (data.drop OPCODE_LEN_SIZE))))

/-- The tail of `DataEnd`: start the summary hasher and yield the record. -/
def dataEndRecord (r : LinearReader δ) (len : Nat) : Turn δ :=
  let fileData :=
    if r.options.validateSummarySectionCrc then r.fileData.setHasher (some Hasher.new)
    else r.fileData
  match fileData.consumeWithoutHashing len with
  | none => .panic
  | some (data, fileData) =>
      leave { r with fileData, currentlyReading := .fileRecord }
        (some (.ok (.record op.DATA_END data)))

/-- `DataEnd`. -/
def dataEnd (r : LinearReader δ) (len : Nat) (calculated : Option UInt32) : Turn δ :=
  match checkLen len r.options.recordLengthLimit with
  | none => r.fail (.recordTooLarge op.DATA_END len)
  | some len =>
      r.load len fun buf =>
        match readLeFrom DataEnd.read buf with
        | .error e => r.fail e
        | .ok (rec, _) =>
            let saved := rec.dataSectionCrc
            match calculated with
            | some calculated =>
                if saved ≠ 0 ∧ calculated ≠ saved then r.fail (.badDataCrc saved calculated)
                else r.dataEndRecord len
            | none => r.dataEndRecord len

/-- `Footer`. -/
def footer (r : LinearReader δ) (len : Nat) (hasher : Option Hasher) : Turn δ :=
  match checkLen len r.options.recordLengthLimit with
  | none => r.fail (.recordTooLarge op.FOOTER len)
  | some len =>
      r.consume len fun data r =>
        match readLeFrom Footer.read data with
        | .error e => r.fail e
        | .ok (footer, _) =>
            let yield_ := leave { r with currentlyReading := .endMagic }
              (some (.ok (.record op.FOOTER data)))
            match hasher with
            | none => yield_
            | some hasher =>
                if data.length < 16 then .panic
                else
                  let calculated := (hasher.update (data.take 16)).finalize
                  let saved := footer.summaryCrc
                  if saved ≠ 0 ∧ saved ≠ calculated then r.fail (.badSummaryCrc saved calculated)
                  else yield_

/-- The bytes of a chunk header with an empty compression name. -/
def MIN_CHUNK_HEADER_SIZE : Nat := 8 + 8 + 8 + 4 + 4 + 8

/-- The tail of `ChunkHeader`: the chunk state, the hashers and the next state. -/
def enterChunk (r : LinearReader δ) (header : ChunkHeader) (decompressor : Option δ)
    (padding : Nat) : Turn δ :=
  let streaming := r.options.validateChunkCrcs && !r.options.prevalidateChunkCrcs &&
    header.uncompressedCrc != 0
  let state : ChunkState δ :=
    { decompressor
      uncompressedDataHasher :=
        if streaming && header.compression.isEmpty then some Hasher.new else none
      compressedRemaining := header.compressedSize.toNat
      uncompressedLen := header.uncompressedSize.toNat
      uncompressedRemaining := header.uncompressedSize.toNat
      paddingAfterCompressedData := padding
      crc := header.uncompressedCrc }
  .again { r with
    decompressedContent := r.decompressedContent.clear.setHasher
      (if streaming && !header.compression.isEmpty then some Hasher.new else none)
    currentlyReading :=
      if r.options.prevalidateChunkCrcs && header.uncompressedCrc != 0 then .validatingChunkCrc
      else .chunkRecord
    chunkState := some state }

/-- `ChunkHeader`. -/
def chunkHeader (r : LinearReader δ) (len : Nat) : Turn δ :=
  r.load MIN_CHUNK_HEADER_SIZE fun minHeaderBuf =>
    let compressionLen := ofLe ((minHeaderBuf.drop 28).take 4)
    let headerLen := MIN_CHUNK_HEADER_SIZE + compressionLen
    r.consume headerLen fun headerBuf r =>
      match readLeFrom ChunkHeader.read headerBuf with
      | .error e => r.fail e
      | .ok (header, _) =>
          match getDecompressor D r.decompressors header.compression with
          | (.error e, decompressors) => fail { r with decompressors } e
          | (.ok decompressor, decompressors) =>
              let r := { r with decompressors }
              if len < headerLen then r.fail .unexpectedEoc
              else if len - headerLen < header.compressedSize.toNat then r.fail .unexpectedEoc
              else
                match checkLen (len - headerLen - header.compressedSize.toNat)
                    r.options.recordLengthLimit with
                | none => r.fail (.chunkTooLarge len)
                | some padding => r.enterChunk header decompressor padding

/-- `ValidatingChunkCrc`. -/
def validatingChunkCrc (fuel : Nat) (r : LinearReader δ) : Turn δ :=
  match r.chunkState with
  | none => .panic
  | some st =>
      match st.decompressor with
      | none =>
          match checkLen st.compressedRemaining r.options.recordLengthLimit with
          | none => r.fail (.chunkTooLarge st.compressedRemaining)
          | some toLoad =>
              r.load toLoad fun records =>
                let calculated := crc32 records
                if calculated ≠ st.crc then r.fail (.badChunkCrc st.crc calculated)
                else .again { r with currentlyReading := .chunkRecord }
      | some d =>
          match checkLen st.uncompressedLen r.options.recordLengthLimit with
          | none => r.fail (.chunkTooLarge st.uncompressedLen)
          | some uncompressedLen =>
              if r.decompressedContent.len ≥ uncompressedLen then
                let calculated := crc32 r.decompressedContent.unread
                if calculated ≠ st.crc then r.fail (.badChunkCrc st.crc calculated)
                else .again { r with currentlyReading := .chunkRecord }
              else r.decompress D fuel st d uncompressedLen fun r _ _ => .again r

/-- `ChunkRecord` of an uncompressed chunk: records are sliced out of the file. -/
def plainChunkRecord (r : LinearReader δ) (st : ChunkState δ) : Turn δ :=
  if st.compressedRemaining = 0 then .again { r with currentlyReading := .paddingAfterChunk }
  else
    r.load OPCODE_LEN_SIZE fun buf =>
      let (opcode, len) := opcodeAndLen buf
      match checkLen len r.options.recordLengthLimit with
      | none => r.fail (.recordTooLarge opcode len)
      | some len =>
          if OPCODE_LEN_SIZE + len > USIZE_MAX then .panic
          else
            r.consume (OPCODE_LEN_SIZE + len) fun opcodeLenData r =>
              if OPCODE_LEN_SIZE + len > st.compressedRemaining then .panic
              else
                leave { r with chunkState := some { st with
                    uncompressedDataHasher :=
                      st.uncompressedDataHasher.map (·.update opcodeLenData)
                    compressedRemaining := st.compressedRemaining - (OPCODE_LEN_SIZE + len) } }
                  (some (.ok (.record opcode (opcodeLenData.drop OPCODE_LEN_SIZE))))

/-- Take the record at the front of the decompressed buffer off it. -/
def yieldPacked (r : LinearReader δ) (opcode : UInt8) (len : Nat) : Turn δ :=
  match r.decompressedContent.markRead OPCODE_LEN_SIZE with
  | none => .panic
  | some content =>
      match content.consume len with
      | none => .panic
      | some (data, decompressedContent) =>
          leave { r with decompressedContent } (some (.ok (.record opcode data)))

/-- The next record of a compressed chunk, decompressed first as far as it goes. -/
def nextPacked (fuel : Nat) (r : LinearReader δ) (st : ChunkState δ) (d : δ) : Turn δ :=
  r.decompress D fuel st d OPCODE_LEN_SIZE fun r st d =>
    let (opcode, len) := opcodeAndLen (r.decompressedContent.unread.take OPCODE_LEN_SIZE)
    match checkLen len r.options.recordLengthLimit with
    | none => r.fail (.recordTooLarge opcode len)
    | some len =>
        if OPCODE_LEN_SIZE + len > USIZE_MAX then .panic
        else
          r.decompress D fuel st d (OPCODE_LEN_SIZE + len) fun r _ _ => r.yieldPacked opcode len

/-- Clear the decompressed buffer when it has been read to its end. -/
def clearDecompressed (r : LinearReader δ) : LinearReader δ :=
  if r.decompressedContent.len = 0 then
    { r with decompressedContent := r.decompressedContent.clear } else r

/-- `ChunkRecord` of a compressed chunk: records are read from the decompressed
buffer. -/
def packedChunkRecord (fuel : Nat) (r : LinearReader δ) (st : ChunkState δ) (d : δ) : Turn δ :=
  let r := r.clearDecompressed
  if st.uncompressedRemaining = 0 ∧ r.decompressedContent.len = 0 then
    match checkLen st.compressedRemaining r.options.recordLengthLimit with
    | none => r.fail (.chunkTooLarge st.compressedRemaining)
    | some rest =>
        if st.paddingAfterCompressedData + rest > USIZE_MAX then .panic
        else
          .again { r with
            currentlyReading := .paddingAfterChunk
            chunkState := some { st with
              paddingAfterCompressedData := st.paddingAfterCompressedData + rest
              compressedRemaining := 0 } }
  else r.nextPacked D fuel st d

/-- `ChunkRecord`. -/
def chunkRecord (fuel : Nat) (r : LinearReader δ) : Turn δ :=
  match r.chunkState with
  | none => .panic
  | some st =>
      match st.decompressor with
      | none => r.plainChunkRecord st
      | some d => r.packedChunkRecord D fuel st d

/-- The CRC check at the end of a chunk. -/
def checkChunkCrc (r : LinearReader δ) (saved : UInt32) (hasher : Option Hasher) : Turn δ :=
  let next := Turn.again { r with chunkState := none, currentlyReading := .fileRecord }
  match hasher with
  | none => next
  | some hasher =>
      let calculated := hasher.finalize
      if saved ≠ 0 ∧ saved ≠ calculated then r.fail (.badChunkCrc saved calculated) else next

/-- `PaddingAfterChunk`. -/
def paddingAfterChunk (r : LinearReader δ) : Turn δ :=
  match r.chunkState with
  | none => .panic
  | some st =>
      r.consume st.paddingAfterCompressedData fun _ r =>
        match st.decompressor with
        | some d =>
            let st := { st with decompressor := none }
            match D.reset d with
            | (_, .error e) => fail { r with chunkState := some st } e
            | (d, .ok _) =>
                checkChunkCrc
                  { r with
                    chunkState := some st
                    decompressors := Function.update r.decompressors (D.name d) (some d)
                    decompressedContent := r.decompressedContent.setHasher none }
                  st.crc r.decompressedContent.hasher
        | none =>
            checkChunkCrc
              { r with chunkState := some { st with uncompressedDataHasher := none } }
              st.crc st.uncompressedDataHasher

/-- `EndMagic`. -/
def endMagic (r : LinearReader δ) : Turn δ :=
  if r.options.skipEndMagic then r.leave none
  else
    r.consume MAGIC.length fun data r =>
      if data = MAGIC then .again { r with currentlyReading := .afterEndMagic }
      else r.fail .badMagic

/-- `AfterEndMagic`. -/
def afterEndMagic (r : LinearReader δ) : Turn δ :=
  if r.options.checkFinishesAfterEndMagic then
    if r.fileData.len > 0 then r.fail .bytesAfterEndMagic
    else if r.atEof then r.leave none
    else r.leave (some (.ok (.readRequest 1)))
  else r.leave none

/-- One iteration of the loop of `next_event`. -/
def turn (fuel : Nat) (r : LinearReader δ) : Turn δ :=
  match r.currentlyReading with
  | .startMagic => r.startMagic
  | .fileRecord => r.fileRecord
  | .dataEnd len calculated => r.dataEnd len calculated
  | .footer len hasher => r.footer len hasher
  | .chunkHeader len => r.chunkHeader D len
  | .validatingChunkCrc => r.validatingChunkCrc D fuel
  | .chunkRecord => r.chunkRecord D fuel
  | .paddingAfterChunk => r.paddingAfterChunk D
  | .endMagic => r.endMagic
  | .afterEndMagic => r.afterEndMagic

/-- The loop of `next_event`. -/
def loop : Nat → LinearReader δ → Outcome δ
  | 0, _ => .spin
  | fuel + 1, r =>
      match r.turn D (fuel + 1) with
      | .again r => loop fuel r
      | .ret r ev => .ret r ev
      | .panic => .panic
      | .spin => .spin

/-- `next_event`, with fuel for its loops. -/
def nextEvent (fuel : Nat) (r : LinearReader δ) : Outcome δ :=
  if r.atEof then
    if (r.options.skipEndMagic ∨ r.currentlyReading = .afterEndMagic) ∧ r.fileData.len = 0 ∧
        r.decompressedContent.len = 0 ∧ r.chunkState.isNone then .ret r none
    else .ret r (some (.error .unexpectedEof))
  else loop D fuel r

end LinearReader
end Mcap

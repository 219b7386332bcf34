import Mcap.LinearReader

/-! # Reading a whole byte string

The streaming reader is fed in pieces and may stop at any byte.  This module
says what it is for, without pieces: `Spec` is a reader that holds everything
that is left of the input, and `Spec.turn` is what it does next.  A step needs
more bytes than there are exactly when the input is truncated (`eof`).

Records of an uncompressed chunk are sliced out of the input, as the source
does.  A compressed chunk is opened at once: its compressed bytes are taken off
the input and replaced by the bytes they unpack to, whatever these are
(`packed`).  `Unpacks` is the condition under which this is what every reader
sees, however its decompressor is called: the bytes decode without an error,
and no call asks for input beyond them.

`Parses` is the run of a `Spec` to its end: the records it yields and how it
stops.
-/
namespace Mcap
open LinearReader (opcodeAndLen MIN_CHUNK_HEADER_SIZE)

variable {δ : Type} (D : Decompressor δ)

/-! ## Decompressors on intact data -/

/-- **Decoding, however it is called.**  `Mid name d c out` says that the
decompressor `d` of a chunk has the compressed bytes `c` still to come and the
bytes `out` still to write.  Every call on a prefix of `c` succeeds and stays in
the relation, the size asked for never exceeds what is left, and a call that
makes no progress asks for more than it was given.  Once everything is written,
what is left over is within the record length limit, and a reset makes the
decompressor `Fresh`: fit for the next chunk, as a new one is. -/
structure Decoding (limit : Option Nat) where
  Fresh : String → δ → Prop
  Mid : String → δ → Bytes → Bytes → Prop
  zstd : Fresh "zstd" D.newZstd
  lz4 : ∀ {d}, D.newLz4 = .ok d → Fresh "lz4" d
  hint : ∀ {name d c out}, Mid name d c out → D.nextReadSize d ≤ c.length
  call : ∀ {name d c out src rest n}, Mid name d c out → c = src ++ rest →
    D.nextReadSize d ≤ src.length → 0 < n → out ≠ [] →
    ∃ d' res c' out', D.decompress d src n = (d', .ok res) ∧
      c = c.take res.consumed ++ c' ∧ out = res.wrote ++ out' ∧ Mid name d' c' out' ∧
      (res.consumed = 0 → res.wrote = [] → src.length < D.nextReadSize d')
  tail : ∀ {name d c l}, Mid name d c [] → limit = some l → c.length ≤ l
  reset : ∀ {name d c}, Mid name d c [] →
    ∃ d', D.reset d = (d', .ok ()) ∧ D.name d' = name ∧ Fresh name d'

variable {D}

/-- **The compressed bytes `c` are intact**: every decompressor a reader may have
for them decodes them to `out`. -/
def Unpacks {limit : Option Nat} (Δ : Decoding D limit) (name : String) (c out : Bytes) : Prop :=
  ∀ d, Δ.Fresh name d → Δ.Mid name d c out

variable (D)

/-! ## The reader that has everything -/

/-- What is known of an open chunk besides its records. -/
structure OpenChunk where
  crc : UInt32
  /-- Absorbs the records read so far, when the CRC is checked at the end. -/
  hasher : Option Hasher
  padding : Nat

/-- The state of the reader. -/
inductive Phase
  | startMagic
  | fileRecord
  | chunkHeader (len : Nat)
  | footer (len : Nat) (hasher : Option Hasher)
  | dataEnd (len : Nat) (calculated : Option UInt32)
  /-- The CRC of an uncompressed chunk of `remaining` bytes is checked first. -/
  | validatingPlain (remaining : Nat) (c : OpenChunk)
  /-- The CRC of a compressed chunk that unpacks to `out` is checked first. -/
  | validatingPacked (out : Bytes) (c : OpenChunk)
  /-- `remaining` bytes of the input are records of an uncompressed chunk. -/
  | plainChunk (remaining : Nat) (c : OpenChunk)
  /-- `out` is left of the records of a compressed chunk.  The first `base` bytes
  of the decompressed buffer are records read already. -/
  | packedChunk (out : Bytes) (base : Nat) (validated : Bool) (c : OpenChunk)
  | paddingAfterChunk (c : OpenChunk)
  | endMagic
  | afterEndMagic

/-- The reader, with everything that is left of the input. -/
structure Spec where
  phase : Phase
  bytes : Bytes
  hasher : Option Hasher

/-- What the reader does next. -/
inductive SpecTurn
  | again (s : Spec)
  | record (opcode : UInt8) (data : Bytes) (s : Spec)
  | fail (e : McapError)
  | done
  | panic
  /-- More bytes are needed. -/
  | eof
  /-- A compressed chunk is opened: `size` bytes compressed, of which `c` are
  there, that should unpack to `n` bytes. -/
  | packed (name : String) (size : Nat) (c : Bytes) (n : Nat) (k : Bytes → Spec)

namespace Spec

/-- Absorb bytes that are read. -/
def absorb (h : Option Hasher) (bs : Bytes) : Option Hasher := h.map (·.update bs)

/-- Read `n` bytes off the input. -/
def skip (s : Spec) (n : Nat) : Spec :=
  { s with bytes := s.bytes.drop n, hasher := absorb s.hasher (s.bytes.take n) }

/-- The reader at the start of a byte string. -/
def init (o : LinearReaderOptions) (bytes : Bytes) : Spec where
  phase := if o.skipStartMagic then .fileRecord else .startMagic
  bytes
  hasher := if o.validateDataSectionCrc then some Hasher.new else none

/-- Do `k` if there are `n` bytes. -/
def need (s : Spec) (n : Nat) (k : SpecTurn) : SpecTurn :=
  if s.bytes.length < n then .eof else k

def startMagic (o : LinearReaderOptions) (s : Spec) : SpecTurn :=
  if o.skipStartMagic then .again { s with phase := .fileRecord }
  else
    s.need MAGIC.length <|
      if s.bytes.take MAGIC.length ≠ MAGIC then .fail .badMagic
      else .again { s.skip MAGIC.length with phase := .fileRecord }

def fileRecord (o : LinearReaderOptions) (s : Spec) : SpecTurn :=
  s.need OPCODE_LEN_SIZE <|
    let (opcode, len) := opcodeAndLen (s.bytes.take OPCODE_LEN_SIZE)
    if opcode = op.CHUNK ∧ !o.emitChunks then
      .again { s.skip OPCODE_LEN_SIZE with phase := .chunkHeader len }
    else if opcode = op.DATA_END then
      .again { s with
        phase := .dataEnd len (s.hasher.map Hasher.finalize)
        bytes := s.bytes.drop OPCODE_LEN_SIZE
        hasher := none }
    else if opcode = op.FOOTER then
      .again { s with
        phase := .footer len (absorb s.hasher (s.bytes.take OPCODE_LEN_SIZE))
        bytes := s.bytes.drop OPCODE_LEN_SIZE
        hasher := none }
    else
      match checkLen len o.recordLengthLimit with
      | none => .fail (.recordTooLarge opcode len)
      | some len =>
          if OPCODE_LEN_SIZE + len > USIZE_MAX then .panic
          else
            s.need (OPCODE_LEN_SIZE + len) <|
              .record opcode ((s.bytes.take (OPCODE_LEN_SIZE + len)).drop OPCODE_LEN_SIZE)
                (s.skip (OPCODE_LEN_SIZE + len))

def dataEnd (o : LinearReaderOptions) (s : Spec) (len : Nat) (calculated : Option UInt32) :
    SpecTurn :=
  match checkLen len o.recordLengthLimit with
  | none => .fail (.recordTooLarge op.DATA_END len)
  | some len =>
      s.need len <|
        match readLeFrom DataEnd.read (s.bytes.take len) with
        | .error e => .fail e
        | .ok (rec, _) =>
            let saved := rec.dataSectionCrc
            let yield_ := SpecTurn.record op.DATA_END (s.bytes.take len)
              { phase := .fileRecord
                bytes := s.bytes.drop len
                hasher := if o.validateSummarySectionCrc then some Hasher.new else s.hasher }
            match calculated with
            | some calculated =>
                if saved ≠ 0 ∧ calculated ≠ saved then .fail (.badDataCrc saved calculated)
                else yield_
            | none => yield_

def footer (o : LinearReaderOptions) (s : Spec) (len : Nat) (hasher : Option Hasher) : SpecTurn :=
  match checkLen len o.recordLengthLimit with
  | none => .fail (.recordTooLarge op.FOOTER len)
  | some len =>
      s.need len <|
        match readLeFrom Footer.read (s.bytes.take len) with
        | .error e => .fail e
        | .ok (footer, _) =>
            let yield_ := SpecTurn.record op.FOOTER (s.bytes.take len)
              { s.skip len with phase := .endMagic }
            match hasher with
            | none => yield_
            | some hasher =>
                if (s.bytes.take len).length < 16 then .panic
                else
                  let calculated := (hasher.update ((s.bytes.take len).take 16)).finalize
                  let saved := footer.summaryCrc
                  if saved ≠ 0 ∧ saved ≠ calculated then .fail (.badSummaryCrc saved calculated)
                  else yield_

/-- The chunk is checked at the end, as its records are read. -/
def streaming (o : LinearReaderOptions) (header : ChunkHeader) : Bool :=
  o.validateChunkCrcs && !o.prevalidateChunkCrcs && header.uncompressedCrc != 0

/-- The chunk is checked before any of its records is read. -/
def prevalidated (o : LinearReaderOptions) (header : ChunkHeader) : Bool :=
  o.prevalidateChunkCrcs && header.uncompressedCrc != 0

/-- Enter the chunk whose header has just been read off `s`. -/
def enterChunk (o : LinearReaderOptions) (s : Spec) (header : ChunkHeader) (padding : Nat) :
    SpecTurn :=
  let c : OpenChunk :=
    { crc := header.uncompressedCrc
      hasher := if streaming o header then some Hasher.new else none
      padding }
  let size := header.compressedSize.toNat
  if header.compression = "" then
    .again { s with
      phase := if prevalidated o header then .validatingPlain size c else .plainChunk size c }
  else
    .packed header.compression size (s.bytes.take size) header.uncompressedSize.toNat fun out =>
      { s.skip size with
        phase := if prevalidated o header then .validatingPacked out c
          else .packedChunk out 0 false c }

/-- There is a decompressor for the compression `name`. -/
def available (name : String) : Except McapError Unit :=
  if name = "zstd" ∨ name = "" then .ok ()
  else if name = "lz4" then (fun _ => ()) <$> D.newLz4
  else .error (.unsupportedCompression name)

def chunkHeader (o : LinearReaderOptions) (s : Spec) (len : Nat) : SpecTurn :=
  s.need MIN_CHUNK_HEADER_SIZE <|
    let headerLen := MIN_CHUNK_HEADER_SIZE + ofLe ((s.bytes.drop 28).take 4)
    s.need headerLen <|
      match readLeFrom ChunkHeader.read (s.bytes.take headerLen) with
      | .error e => .fail e
      | .ok (header, _) =>
          match available D header.compression with
          | .error e => .fail e
          | .ok _ =>
              if len < headerLen then .fail .unexpectedEoc
              else if len - headerLen < header.compressedSize.toNat then .fail .unexpectedEoc
              else
                match checkLen (len - headerLen - header.compressedSize.toNat)
                    o.recordLengthLimit with
                | none => .fail (.chunkTooLarge len)
                | some padding => enterChunk o (s.skip headerLen) header padding

def validatingPlain (o : LinearReaderOptions) (s : Spec) (remaining : Nat) (c : OpenChunk) :
    SpecTurn :=
  match checkLen remaining o.recordLengthLimit with
  | none => .fail (.chunkTooLarge remaining)
  | some toLoad =>
      s.need toLoad <|
        let calculated := crc32 (s.bytes.take toLoad)
        if calculated ≠ c.crc then .fail (.badChunkCrc c.crc calculated)
        else .again { s with phase := .plainChunk remaining c }

def validatingPacked (o : LinearReaderOptions) (s : Spec) (out : Bytes) (c : OpenChunk) :
    SpecTurn :=
  match checkLen out.length o.recordLengthLimit with
  | none => .fail (.chunkTooLarge out.length)
  | some _ =>
      if out.length > ISIZE_MAX then .panic
      else
        let calculated := crc32 out
        if calculated ≠ c.crc then .fail (.badChunkCrc c.crc calculated)
        else .again { s with phase := .packedChunk out 0 true c }

def plainChunk (o : LinearReaderOptions) (s : Spec) (remaining : Nat) (c : OpenChunk) :
    SpecTurn :=
  if remaining = 0 then .again { s with phase := .paddingAfterChunk c }
  else
    s.need OPCODE_LEN_SIZE <|
      let (opcode, len) := opcodeAndLen (s.bytes.take OPCODE_LEN_SIZE)
      match checkLen len o.recordLengthLimit with
      | none => .fail (.recordTooLarge opcode len)
      | some len =>
          if OPCODE_LEN_SIZE + len > USIZE_MAX then .panic
          else
            s.need (OPCODE_LEN_SIZE + len) <|
              if OPCODE_LEN_SIZE + len > remaining then .panic
              else
                let data := s.bytes.take (OPCODE_LEN_SIZE + len)
                .record opcode (data.drop OPCODE_LEN_SIZE)
                  { s.skip (OPCODE_LEN_SIZE + len) with
                    phase := .plainChunk (remaining - (OPCODE_LEN_SIZE + len))
                      { c with hasher := absorb c.hasher data } }

def packedChunk (o : LinearReaderOptions) (s : Spec) (out : Bytes) (base : Nat) (validated : Bool)
    (c : OpenChunk) : SpecTurn :=
  if out = [] then .again { s with phase := .paddingAfterChunk c }
  else if base + OPCODE_LEN_SIZE > ISIZE_MAX then .panic
  else if out.length < OPCODE_LEN_SIZE then .fail .unexpectedEoc
  else
    let (opcode, len) := opcodeAndLen (out.take OPCODE_LEN_SIZE)
    match checkLen len o.recordLengthLimit with
    | none => .fail (.recordTooLarge opcode len)
    | some len =>
        if OPCODE_LEN_SIZE + len > USIZE_MAX then .panic
        else if base + (OPCODE_LEN_SIZE + len) > ISIZE_MAX then .panic
        else if out.length < OPCODE_LEN_SIZE + len then .fail .unexpectedEoc
        else
          let data := out.take (OPCODE_LEN_SIZE + len)
          .record opcode (data.drop OPCODE_LEN_SIZE)
            { s with
              phase := .packedChunk (out.drop (OPCODE_LEN_SIZE + len))
                (if validated then base + (OPCODE_LEN_SIZE + len) else 0) validated
                { c with hasher := absorb c.hasher data } }

def paddingAfterChunk (s : Spec) (c : OpenChunk) : SpecTurn :=
  s.need c.padding <|
    let next := SpecTurn.again { s.skip c.padding with phase := .fileRecord }
    match c.hasher with
    | none => next
    | some hasher =>
        let calculated := hasher.finalize
        if c.crc ≠ 0 ∧ c.crc ≠ calculated then .fail (.badChunkCrc c.crc calculated) else next

def endMagic (o : LinearReaderOptions) (s : Spec) : SpecTurn :=
  if o.skipEndMagic then .done
  else
    s.need MAGIC.length <|
      if s.bytes.take MAGIC.length = MAGIC then
        .again { s.skip MAGIC.length with phase := .afterEndMagic }
      else .fail .badMagic

def afterEndMagic (o : LinearReaderOptions) (s : Spec) : SpecTurn :=
  if o.checkFinishesAfterEndMagic then
    if s.bytes.length > 0 then .fail .bytesAfterEndMagic else .eof
  else .done

/-- One step of the reader. -/
def turn (o : LinearReaderOptions) (s : Spec) : SpecTurn :=
  match s.phase with
  | .startMagic => s.startMagic o
  | .fileRecord => s.fileRecord o
  | .dataEnd len calculated => s.dataEnd o len calculated
  | .footer len hasher => s.footer o len hasher
  | .chunkHeader len => s.chunkHeader D o len
  | .validatingPlain remaining c => s.validatingPlain o remaining c
  | .validatingPacked out c => s.validatingPacked o out c
  | .plainChunk remaining c => s.plainChunk o remaining c
  | .packedChunk out base validated c => s.packedChunk o out base validated c
  | .paddingAfterChunk c => s.paddingAfterChunk c
  | .endMagic => s.endMagic o
  | .afterEndMagic => s.afterEndMagic o

end Spec

/-- The reader is inside a chunk. -/
def Phase.inChunk : Phase → Bool
  | .validatingPlain .. | .validatingPacked .. | .plainChunk .. | .packedChunk ..
  | .paddingAfterChunk .. => true
  | _ => false

/-- The end magic has been read. -/
def Phase.afterEnd : Phase → Bool
  | .afterEndMagic => true
  | _ => false

/-- How a run ends. -/
inductive Final
  | finished
  | failed (e : McapError)
  | panicked
deriving DecidableEq

/-- The verdict of `next_event` when the input has ended: fine between records,
if no end magic is expected or it has been read. -/
def Spec.atEof (o : LinearReaderOptions) (s : Spec) : Final :=
  if (o.skipEndMagic ∨ s.phase.afterEnd) ∧ s.bytes = [] ∧ !s.phase.inChunk then .finished
  else .failed .unexpectedEof

/-- **A run to the end**: the records yielded, in order, and how it stops.  A
compressed chunk is opened only if it is intact. -/
inductive Parses {o : LinearReaderOptions} (Δ : Decoding D o.recordLengthLimit) :
    Spec → List (UInt8 × Bytes) → Final → Prop
  | again {s s' evs fin} : s.turn D o = .again s' → Parses Δ s' evs fin → Parses Δ s evs fin
  | record {s s' opcode data evs fin} : s.turn D o = .record opcode data s' →
      Parses Δ s' evs fin → Parses Δ s ((opcode, data) :: evs) fin
  | packed {s name size c n k out evs fin} : s.turn D o = .packed name size c n k →
      c.length = size → out.length = n → Unpacks Δ name c out →
      Parses Δ (k out) evs fin → Parses Δ s evs fin
  | fail {s e} : s.turn D o = .fail e → Parses Δ s [] (.failed e)
  | done {s} : s.turn D o = .done → Parses Δ s [] .finished
  | panic {s} : s.turn D o = .panic → Parses Δ s [] .panicked
  | eof {s} : s.turn D o = .eof → Parses Δ s [] (s.atEof o)

/-- What the turn `t` of `s` leads to, for the records `evs` and the end `fin` to
follow: `Q` of the state it goes on with. -/
def Leads {o : LinearReaderOptions} (Δ : Decoding D o.recordLengthLimit)
    (Q : Spec → List (UInt8 × Bytes) → Final → Prop) (s : Spec) (evs : List (UInt8 × Bytes))
    (fin : Final) : SpecTurn → Prop
  | .again s' => Q s' evs fin
  | .record opcode data s' => ∃ evs', evs = (opcode, data) :: evs' ∧ Q s' evs' fin
  | .packed name size c n k => ∃ out, c.length = size ∧ out.length = n ∧ Unpacks Δ name c out ∧
      Q (k out) evs fin
  | .fail e => evs = [] ∧ fin = .failed e
  | .done => evs = [] ∧ fin = .finished
  | .panic => evs = [] ∧ fin = .panicked
  | .eof => evs = [] ∧ fin = s.atEof o

/-- **Induction on a run**: a property of a state and what follows from it holds if
each turn leads to it. -/
theorem Parses.elim {o : LinearReaderOptions} {Δ : Decoding D o.recordLengthLimit}
    {Q : Spec → List (UInt8 × Bytes) → Final → Prop}
    (step : ∀ {s evs fin}, Leads D Δ Q s evs fin (s.turn D o) → Q s evs fin)
    {s : Spec} {evs : List (UInt8 × Bytes)} {fin : Final} (h : Parses D Δ s evs fin) :
    Q s evs fin := by
  induction h with
  | again ht _ ih => exact step (by rw [ht]; exact ih)
  | record ht _ ih => exact step (by rw [ht]; exact ⟨_, rfl, ih⟩)
  | packed ht hsize hlen hunp _ ih => exact step (by rw [ht]; exact ⟨_, hsize, hlen, hunp, ih⟩)
  | fail ht | done ht | panic ht | eof ht => exact step (by rw [ht]; exact ⟨rfl, rfl⟩)

/-- A run that can be computed, given what a compressed chunk unpacks to. -/
def Spec.parse (o : LinearReaderOptions) (unpack : String → Bytes → Option Bytes) :
    Nat → Spec → Option (List (UInt8 × Bytes) × Final)
  | 0, _ => none
  | fuel + 1, s =>
      match s.turn D o with
      | .again s' => parse o unpack fuel s'
      | .record opcode data s' =>
          (parse o unpack fuel s').map fun (evs, fin) => ((opcode, data) :: evs, fin)
      | .packed name size c n k =>
          match unpack name c with
          | some out => if c.length = size ∧ out.length = n then parse o unpack fuel (k out) else none
          | none => none
      | .fail e => some ([], .failed e)
      | .done => some ([], .finished)
      | .panic => some ([], .panicked)
      | .eof => some ([], s.atEof o)

theorem parses_of_parse {o : LinearReaderOptions} {Δ : Decoding D o.recordLengthLimit}
    {unpack : String → Bytes → Option Bytes}
    (hun : ∀ {name c out}, unpack name c = some out → Unpacks Δ name c out) {fuel : Nat} {s : Spec}
    {evs : List (UInt8 × Bytes)} {fin : Final}
    (h : s.parse D o unpack fuel = some (evs, fin)) : Parses D Δ s evs fin := by
  induction fuel generalizing s evs fin with
  | zero => cases h
  | succ fuel ih =>
    unfold Spec.parse at h
    cases ht : s.turn D o with
    | again s' =>
      simp only [ht] at h
      exact .again ht (ih h)
    | record opcode data s' =>
      simp only [ht] at h
      rcases hp : s'.parse D o unpack fuel with _ | ⟨evs', fin'⟩ <;> simp only [hp] at h <;> cases h
      exact .record ht (ih hp)
    | packed name size c n k =>
      simp only [ht] at h
      rcases hu : unpack name c with _ | out <;> simp only [hu] at h
      · cases h
      · split at h
        · rename_i hc
          exact .packed ht hc.1 hc.2 (hun hu) (ih h)
        · cases h
    | fail e =>
      simp only [ht] at h
      cases h
      exact .fail ht
    | done =>
      simp only [ht] at h
      cases h
      exact .done ht
    | panic =>
      simp only [ht] at h
      cases h
      exact .panic ht
    | eof =>
      simp only [ht] at h
      cases h
      exact .eof ht

end Mcap

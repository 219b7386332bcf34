import Mcap.TsRecords

/-! # The stream reader of the TypeScript library

`McapStreamReader.ts`.  Bytes are appended to a buffer that a view is of; the bytes in front of the
offset of the reader have been consumed, and the others are kept when the view moves.

`nextRecord` resumes a generator that waits at one of a few places: for the magic bytes, for a
record, behind a chunk that was yielded, in a chunk, or for the magic bytes behind a footer.  A turn
(`turn`) is what it does from one such place to the next one.
-/
namespace Mcap
namespace Ts

/-- `McapReaderOptions`; a handler may throw. -/
structure McapReaderOptions where
  includeChunks : Bool
  decompressHandlers : String → Option (Bytes → Nat → Except TsError Bytes)
  validateCrcs : Bool
  noMagicPrefix : Bool

/-! ## The generator -/

/-- Where the generator waits; the header is the one that it has come across. -/
inductive Generator
  | magic
  | records (header : Option Header)
  | chunk (header : Option Header) (record : Chunk)
  | inChunk (header : Option Header) (chunkReader : Reader)
  | footer (header : Option Header) (record : Footer)
  | finished
deriving DecidableEq

/-- What a turn comes to, with the offset of the reader behind it. -/
inductive Turn
  | again (generator : Generator) (offset : Nat)
  | yields (record : Option TypedMcapRecord) (generator : Generator) (offset : Nat)
  | returns (record : Footer) (offset : Nat)
deriving DecidableEq

section
variable (decode : Bytes → String) (opts : McapReaderOptions)

/-- The data of a chunk. -/
def chunkBuffer (header : Option Header) (record : Chunk) : Except TsError Bytes := do
  let buffer ←
    if record.compression ≠ "" ∧ 0 < record.records.length then
      match opts.decompressHandlers record.compression with
      | none => throw (.unsupportedCompression record.compression header)
      | some decompress => decompress record.records record.uncompressedSize
    else pure record.records
  if opts.validateCrcs = true ∧ record.uncompressedCrc ≠ 0 ∧
      (crc32 buffer).toNat ≠ record.uncompressedCrc then
    throw (.incorrectChunkCrc (crc32 buffer).toNat record.uncompressedCrc header)
  else pure buffer

/-- The records that a chunk may have. -/
def TypedMcapRecord.inChunk : TypedMcapRecord → Bool
  | .unknown _ => true
  | .schema _ => true
  | .channel _ => true
  | .message _ => true
  | _ => false

/-- The case of a record of the file. -/
def onRecord (header : Option Header) (record : TypedMcapRecord) (offset : Nat) :
    Except TsError Turn :=
  match record with
  | .header record =>
      match header with
      | some header => .error (.duplicateHeader header record)
      | none => .ok (.yields (some (.header record)) (.records (some record)) offset)
  | .chunk record =>
      if opts.includeChunks then
        .ok (.yields (some (.chunk record)) (.chunk header record) offset)
      else .ok (.again (.chunk header record) offset)
  | .footer record => .ok (.again (.footer header record) offset)
  | record => .ok (.yields (some record) (.records header) offset)

/-- The generator, up to the next place where it waits. -/
def turn (view : Bytes) (generator : Generator) (offset : Nat) : Except TsError Turn :=
  match generator with
  | .magic => do
      let (magic, r) ← parseMagic ⟨view, offset⟩
      match magic with
      | none => pure (.yields none .magic r.offset)
      | some () => pure (.again (.records none) r.offset)
  | .records header => do
      let (record, r) ← parseRecord decode opts.validateCrcs ⟨view, offset⟩
      match record with
      | none => pure (.yields none (.records header) r.offset)
      | some record => onRecord opts header record r.offset
  | .chunk header record => do
      let buffer ← chunkBuffer opts header record
      pure (.again (.inChunk header ⟨buffer, 0⟩) offset)
  | .inChunk header chunkReader => do
      let (record, chunkReader) ← parseRecord decode opts.validateCrcs chunkReader
      match record with
      | some record =>
          if record.inChunk then pure (.yields (some record) (.inChunk header chunkReader) offset)
          else throw (.notAllowedInChunk record header)
      | none =>
          if chunkReader.bytesRemaining ≠ 0 then
            throw (.bytesInChunk chunkReader.bytesRemaining header)
          else pure (.again (.records header) offset)
  | .footer header record =>
      match parseMagic ⟨view, offset⟩ with
      | .error e => .error (.atTheEnd e header)
      | .ok (none, r) => .ok (.yields none (.footer header record) r.offset)
      | .ok (some (), r) =>
          if r.bytesRemaining ≠ 0 then .error (.bytesBehindMagic r.bytesRemaining header)
          else .ok (.returns record r.offset)
  | .finished => .ok (.yields none .finished offset)

/-- `next()` of the generator: turns, up to one that yields or returns. -/
def next (view : Bytes) : Nat → Generator → Nat → Except TsError Turn
  | 0, generator, offset => .ok (.yields none generator offset)
  | fuel + 1, generator, offset => do
      match ← turn decode opts view generator offset with
      | .again generator offset => next view fuel generator offset
      | other => pure other

end

/-! ## The reader -/

structure McapStreamReader where
  buffer : Bytes
  byteOffset : Nat
  byteLength : Nat
  offset : Nat
  generator : Generator
  channelsById : Dict Nat Channel
  doneReading : Bool

namespace McapStreamReader

/-- The constructor. -/
def new (opts : McapReaderOptions) : McapStreamReader where
  buffer := List.replicate (MAGIC.length * 2) 0
  byteOffset := 0
  byteLength := 0
  offset := 0
  generator := if opts.noMagicPrefix then .records none else .magic
  channelsById := ∅
  doneReading := false

/-- The bytes that the view is of. -/
def view (s : McapStreamReader) : Bytes := (s.buffer.drop s.byteOffset).take s.byteLength

/-- `TypedArray.set`. -/
def setBytes (array data : Bytes) (at' : Nat) : Bytes :=
  array.take at' ++ data ++ array.drop (at' + data.length)

def appendOrShift (s : McapStreamReader) (data : Bytes) : McapStreamReader :=
  let consumedBytes := s.offset
  let unconsumedBytes := s.byteLength - consumedBytes
  let neededCapacity := unconsumedBytes + data.length
  let existingData := (s.buffer.drop (s.byteOffset + consumedBytes)).take unconsumedBytes
  if neededCapacity ≤ s.buffer.length then
    if s.byteOffset + s.byteLength + data.length ≤ s.buffer.length then
      { s with
        buffer := setBytes s.buffer data (s.byteOffset + s.byteLength)
        byteLength := s.byteLength + data.length }
    else
      { s with
        buffer := setBytes (setBytes s.buffer existingData 0) data existingData.length
        byteOffset := 0
        byteLength := existingData.length + data.length
        offset := 0 }
  else
    let buffer : Bytes := List.replicate (neededCapacity * 2) 0
    { s with
      buffer := setBytes (setBytes buffer existingData 0) data existingData.length
      byteOffset := 0
      byteLength := existingData.length + data.length
      offset := 0 }

def append (s : McapStreamReader) (data : Bytes) : Except TsError McapStreamReader :=
  if s.doneReading then .error .alreadyDone else .ok (s.appendOrShift data)

/-- `isChannelEqual`. -/
def isChannelEqual (a b : Channel) : Bool :=
  decide (a.id = b.id ∧ a.messageEncoding = b.messageEncoding ∧ a.schemaId = b.schemaId ∧
    a.topic = b.topic ∧ a.metadata.items.length = b.metadata.items.length) &&
  a.metadata.items.all fun e => decide (some e.2 = b.metadata.get? e.1)

/-- The channels with a record that is yielded. -/
def noteChannel (channelsById : Dict Nat Channel) (record : Option TypedMcapRecord) :
    Except TsError (Dict Nat Channel) :=
  match record with
  | some (.channel channel) =>
      match channelsById.get? channel.id with
      | some existing =>
          if isChannelEqual existing channel then .ok (channelsById.set channel.id channel)
          else .error (.channelDiffers channel.id channel.topic)
      | none => .ok (channelsById.set channel.id channel)
  | some (.message message) =>
      if (channelsById.get? message.channelId).isNone then .error (.noChannel message.channelId)
      else .ok channelsById
  | _ => .ok channelsById

variable (decode : Bytes → String) (opts : McapReaderOptions)

/-- `nextRecord`.  There are at most three turns for each record of the view, and three more. -/
def nextRecord (s : McapStreamReader) :
    Except TsError (Option TypedMcapRecord × McapStreamReader) :=
  if s.doneReading then .ok (none, s)
  else do
    match ← next decode opts s.view (s.view.length + 4) s.generator s.offset with
    | .returns record offset =>
        pure (some (.footer record),
          { s with offset, generator := .finished, doneReading := true })
    | .yields record generator offset =>
        let channelsById ← noteChannel s.channelsById record
        pure (record, { s with offset, generator, channelsById })
    | .again generator offset => pure (none, { s with offset, generator })

/-- What is done with a reader. -/
inductive Op
  | append (data : Bytes)
  | nextRecord

/-- The records that are returned along some calls, and the reader behind them. -/
def run : List Op → McapStreamReader → Except TsError (List TypedMcapRecord × McapStreamReader)
  | [], s => .ok ([], s)
  | .append data :: ops, s => do
      let s ← s.append data
      run ops s
  | .nextRecord :: ops, s => do
      let (record, s) ← s.nextRecord decode opts
      let (records, s) ← run ops s
      pure (record.toList ++ records, s)

end McapStreamReader
end Ts
end Mcap

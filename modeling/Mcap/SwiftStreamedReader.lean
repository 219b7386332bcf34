import Mcap.SwiftCodec

/-! # The streamed reader of the Swift library

A `RecordReader` holds bytes and an offset in them; `MCAPStreamedReader` has one for what is appended,
and one for the chunk it is in.  Both are models of classes: a call gives a result and the state that
it leaves, also where it throws.

The loops of `nextRecord` go on while more than the opcode and the length of a record are left, which a
record with an empty body at the end of the bytes is not.
-/
namespace Mcap
namespace Swift

/-! ## Record readers -/

structure RecordReader where
  buffer : Bytes
  offset : Nat
deriving DecidableEq

/-- A call of a method: what it comes to, and the state behind it. -/
abbrev Call (σ α : Type) := Exec σ MCAPReadError α

namespace RecordReader

/-- `init(_:)` -/
def new (data : Bytes) : RecordReader := ⟨data, 0⟩

/-- `append`, with `_trim` -/
def append (r : RecordReader) (data : Bytes) : RecordReader := ⟨r.buffer.drop r.offset ++ data, 0⟩

def bytesRemaining (r : RecordReader) : Nat := r.buffer.length - r.offset

def isDone (r : RecordReader) : Bool := r.bytesRemaining = 0

def readMagic : Call RecordReader Bool := fun r =>
  match plus r.offset 8 with
  | .ok stop =>
    if stop < r.buffer.length then
      let actual := (r.buffer.drop r.offset).take 8
      if MAGIC ≠ actual then (.err (.invalidMagic actual), r)
      else (.ok true, { r with offset := stop })
    else (.ok false, r)
  | .err e => (.err e, r)
  | .panic => (.panic, r)

/-- The length that stands at an offset, behind an opcode. -/
def recordLength (r : RecordReader) : Nat := ofLe ((r.buffer.drop (r.offset + 1)).take 8)

/-- `offset + 9 + Int(recordLength)` -/
def recordEnd (r : RecordReader) : Out Nat := do
  let fieldsStart ← plus r.offset 9
  let length ← toInt r.recordLength
  plus fieldsStart length

section
variable (repair : Bytes → String)

/-- The loop of `nextRecord`.  Every turn moves on by at least nine bytes, so that as many turns as
there are bytes are enough. -/
def nextRecordLoop : Nat → RecordReader → Out (Option Record) × RecordReader
  | 0, r => (.ok none, r)
  | turns + 1, r =>
    match plus r.offset 9 with
    | .ok fieldsStart =>
      if fieldsStart < r.buffer.length then
        match r.recordEnd with
        | .ok stop =>
          if stop ≤ r.buffer.length then
            match Opcode.ofRawValue? (r.buffer.getD r.offset 0) with
            | none => nextRecordLoop turns { r with offset := stop }
            | some op =>
              (some <$> deserializingFields (Record.read repair op)
                ((r.buffer.drop fieldsStart).take r.recordLength), { r with offset := stop })
          else (.ok none, r)
        | .err e => (.err e, r)
        | .panic => (.panic, r)
      else (.ok none, r)
    | .err e => (.err e, r)
    | .panic => (.panic, r)

def nextRecord : Call RecordReader (Option Record) := fun r =>
  nextRecordLoop repair (r.buffer.length + 1) r

end

end RecordReader

/-! ## Streamed readers -/

/-- `DecompressHandlers`: what they throw is one error. -/
abbrev DecompressHandlers := String → Option (Bytes → UInt64 → Out Bytes)

structure MCAPStreamedReader where
  recordReader : RecordReader
  chunkReader : Option RecordReader
  readHeaderMagic : Bool

namespace MCAPStreamedReader

def new : MCAPStreamedReader where
  recordReader := .new []
  chunkReader := none
  readHeaderMagic := false

def append (s : MCAPStreamedReader) (data : Bytes) : MCAPStreamedReader :=
  { s with recordReader := s.recordReader.append data }

end MCAPStreamedReader

/-- `_decompress`, and what `loadChunkData` does with a chunk. -/
def decompress (handlers : DecompressHandlers) (chunk : Chunk) : Out Bytes := do
  let decompressedData ←
    if chunk.compression = "" then .ok chunk.records
    else match handlers chunk.compression with
      | some handler => handler chunk.records chunk.uncompressedSize
      | none => .err (.unsupportedCompression chunk.compression)
  if chunk.uncompressedCRC ≠ 0 ∧ chunk.uncompressedCRC ≠ crc32 decompressedData then
    .err (.invalidCRC chunk.uncompressedCRC (crc32 decompressedData))
  else .ok decompressedData

namespace MCAPStreamedReader

section
variable (repair : Bytes → String) (handlers : DecompressHandlers)

/-- A record of the chunk: the reader of a chunk that is done is dropped, whatever the call comes to. -/
def nextInChunk (chunkReader : RecordReader) : Call MCAPStreamedReader (Option Record) := fun s =>
  let (result, chunkReader) := chunkReader.nextRecord repair
  let s := { s with chunkReader := if chunkReader.isDone then none else some chunkReader }
  match result with
  | .ok (some record) => (.ok (some record), s)
  | .ok none => (.err (.extraneousDataInChunk chunkReader.bytesRemaining), s)
  | .err e => (.err e, s)
  | .panic => (.panic, s)

/-- A record of the file, and the first of a chunk in its place. -/
def nextInFile : Call MCAPStreamedReader (Option Record) := fun s =>
  let (result, recordReader) := s.recordReader.nextRecord repair
  let s := { s with recordReader }
  match result with
  | .ok (some (.chunk chunk)) =>
    match decompress handlers chunk with
    | .ok data => nextInChunk repair (.new data) s
    | .err e => (.err e, s)
    | .panic => (.panic, s)
  | .ok record => (.ok record, s)
  | .err e => (.err e, s)
  | .panic => (.panic, s)

/-- What `nextRecord` does behind the magic. -/
def nextBehindMagic : Call MCAPStreamedReader (Option Record) := fun s =>
  match s.chunkReader with
  | none => nextInFile repair handlers s
  | some chunkReader => nextInChunk repair chunkReader s

def nextRecord : Call MCAPStreamedReader (Option Record) := fun s =>
  if s.readHeaderMagic then nextBehindMagic repair handlers s
  else
    let (result, recordReader) := s.recordReader.readMagic
    let s := { s with recordReader }
    match result with
    | .ok true => nextBehindMagic repair handlers { s with readHeaderMagic := true }
    | .ok false => (.ok none, s)
    | .err e => (.err e, s)
    | .panic => (.panic, s)

end

end MCAPStreamedReader

/-! ## Runs -/

/-- A call of a reader. -/
inductive Op
  | append (data : Bytes)
  | nextRecord

/-- The bytes that are appended along some calls. -/
def appendedOf : List Op → Bytes
  | [] => []
  | .append data :: ops => data ++ appendedOf ops
  | .nextRecord :: ops => appendedOf ops

open MCAPStreamedReader in
/-- The records that some calls return, up to the first that throws or traps. -/
def run (repair : Bytes → String) (handlers : DecompressHandlers) :
    List Op → MCAPStreamedReader → Out (List Record × MCAPStreamedReader)
  | [], s => .ok ([], s)
  | .append data :: ops, s => run repair handlers ops (s.append data)
  | .nextRecord :: ops, s =>
    match nextRecord repair handlers s with
    | (.ok record, s) => (fun x => (record.toList ++ x.1, x.2)) <$> run repair handlers ops s
    | (.err e, _) => .err e
    | (.panic, _) => .panic

end Swift
end Mcap

import Mcap.PyRecords

/-! # The stream reader of the Python library

`stream_reader.py`.  `StreamReader.records` is a generator; what it comes to is the list of the
records that it yields, and the exception behind them, if one is raised.

A turn of its loop reads the header of a record and then the record, from the stream that goes on
behind it.  What is left of the length is skipped.  A chunk is broken up in another loop, which does
not skip.
-/
namespace Mcap
namespace Py

/-- The modules `zstandard` and `lz4.frame`, if they are installed. -/
structure Decompressors where
  zstd : Option (Bytes → Nat → Except PyError Bytes)
  lz4 : Option (Bytes → Except PyError Bytes)

/-- The arguments of `StreamReader`. -/
structure StreamReader where
  skipMagic : Bool
  emitChunks : Bool
  validateCrcs : Bool
  recordSizeLimit : Option Nat
deriving DecidableEq

/-- What a generator comes to: what it yields, and the exception that ends it. -/
abbrev Yields := List McapRecord × Option PyError

/-- The opcode of a record. -/
def readOpcode (stream : ReadMethod) : Read PyError UInt8 := do
  let opcode ← read1 stream
  pure (.ofNat opcode)

/-- `read_magic`. -/
def readMagic (stream : ReadMethod) : Read PyError Unit := do
  let magic ← stream 8
  if magic.length ≠ 8 then throw .structError
  else if magic ≠ MAGIC then throw (.invalidMagic magic)
  else pure ()

/-! ## Chunks -/

/-- The bytes of `get_chunk_data_stream`. -/
def getChunkData (D : Decompressors) (chunk : Chunk) (validateCrc : Bool) : Except PyError Bytes := do
  let data ←
    if chunk.compression = "zstd" then
      match D.zstd with
      | none => throw (.unsupportedCompressionError "zstandard")
      | some decompress => decompress chunk.data chunk.uncompressedSize
    else if chunk.compression = "lz4" then
      match D.lz4 with
      | none => throw (.unsupportedCompressionError "lz4")
      | some decompress => decompress chunk.data
    else pure chunk.data
  if validateCrc = true ∧ chunk.uncompressedCrc ≠ 0 ∧
      (crc32 data).toNat ≠ chunk.uncompressedCrc then
    throw (.crcValidationError chunk.uncompressedCrc (crc32 data).toNat (.chunk chunk))
  else pure data

/-- A record of a chunk, behind its header; records of other types are skipped. -/
def readChunkRecord (stream : ReadMethod) (opcode : UInt8) (length : Nat) :
    Read PyError (Option McapRecord) := do
  if opcode = op.CHANNEL then
    let channel ← Channel.read stream
    pure (some (.channel channel))
  else if opcode = op.MESSAGE then
    let message ← Message.read stream length
    pure (some (.message message))
  else if opcode = op.SCHEMA then
    let schema ← Schema.read stream
    pure (some (.schema schema))
  else
    let _ ← stream length
    pure none

/-- A turn of the loop of `breakup_chunk`. -/
def breakupTurn (stream : ReadMethod) (records : List McapRecord) :
    Read PyError (List McapRecord) := do
  let opcode ← readOpcode stream
  let length ← read8 stream
  let record ← readChunkRecord stream opcode length
  pure (records ++ record.toList)

/-- The records in the data of a chunk. -/
def breakup (data : Bytes) : Except PyError (List McapRecord) := do
  let (records, _) ← readFold data.length (breakupTurn ReadDataStream.read) (data.length + 1) []
    (.new data)
  pure records

/-- `breakup_chunk`. -/
def breakupChunk (D : Decompressors) (chunk : Chunk) (validateCrc : Bool) :
    Except PyError (List McapRecord) := do
  let data ← getChunkData D chunk validateCrc
  breakup data

/-! ## The file -/

/-- `StreamReader._read_record`. -/
def readRecord (stream : ReadMethod) (opcode : UInt8) (length : Nat) :
    Read PyError (Option McapRecord) :=
  if opcode = op.ATTACHMENT then some <$> .attachment <$> Attachment.read stream
  else if opcode = op.ATTACHMENT_INDEX then some <$> .attachmentIndex <$> AttachmentIndex.read stream
  else if opcode = op.CHANNEL then some <$> .channel <$> Channel.read stream
  else if opcode = op.CHUNK then some <$> .chunk <$> Chunk.read stream
  else if opcode = op.CHUNK_INDEX then some <$> .chunkIndex <$> ChunkIndex.read stream
  else if opcode = op.DATA_END then some <$> .dataEnd <$> DataEnd.read stream
  else if opcode = op.FOOTER then some <$> .footer <$> Footer.read stream
  else if opcode = op.HEADER then some <$> .header <$> Header.read stream
  else if opcode = op.MESSAGE then some <$> .message <$> Message.read stream length
  else if opcode = op.MESSAGE_INDEX then some <$> .messageIndex <$> MessageIndex.read stream
  else if opcode = op.METADATA then some <$> .metadata <$> Metadata.read stream
  else if opcode = op.METADATA_INDEX then some <$> .metadataIndex <$> MetadataIndex.read stream
  else if opcode = op.SCHEMA then some <$> .schema <$> Schema.read stream
  else if opcode = op.STATISTICS then some <$> .statistics <$> Statistics.read stream
  else if opcode = op.SUMMARY_OFFSET then some <$> .summaryOffset <$> SummaryOffset.read stream
  else do
    let _ ← stream length
    pure none

namespace StreamReader

/-- The header of a record: the opcode and the length, which may be limited. -/
def readHeader (r : StreamReader) (stream : ReadMethod) : Read PyError (UInt8 × Nat) := do
  let opcode ← readOpcode stream
  let length ← read8 stream
  match r.recordSizeLimit with
  | some limit =>
      if limit < length then throw (.recordLengthLimitExceeded opcode length limit)
      else pure (opcode, length)
  | none => pure (opcode, length)

/-- The checksum of the data section is compared with that of the bytes in front of the record. -/
def checkDataEnd (r : StreamReader) (checksum : Nat) (record : Option McapRecord) :
    Except PyError Unit :=
  match record with
  | some (.dataEnd record) =>
      if r.validateCrcs = true ∧ r.skipMagic = false ∧ record.dataSectionCrc ≠ 0 ∧
          record.dataSectionCrc ≠ checksum then
        throw (.crcValidationError record.dataSectionCrc checksum (.dataEnd record))
      else pure ()
  | _ => pure ()

/-- What is left of the length of a record is skipped, if there is anything. -/
def skipPadding (stream : ReadMethod) (count length : Nat) : Read PyError Unit := do
  let c ← get
  let padding : Int := (length : Int) - ((c.pos : Int) - count)
  if 0 < padding then
    let _ ← stream padding
    pure ()
  else pure ()

/-- What is yielded for a record, and whether it is the last one. -/
def deliver (breakupChunk : Chunk → Except PyError (List McapRecord)) (r : StreamReader) :
    Option McapRecord → Except PyError (List McapRecord × Bool)
  | some (.chunk chunk) =>
      if r.emitChunks then pure ([.chunk chunk], false)
      else do
        let records ← breakupChunk chunk
        pure (records, false)
  | some (.footer footer) => pure ([.footer footer], true)
  | some record => pure ([record], false)
  | none => pure ([], false)

/-- An exception, or a value, without reading. -/
def lift {α : Type} (x : Except PyError α) : Read PyError α := fun c => x.map fun a => (a, c)

/-- A turn of the loop of `records`; `input` is all that the stream is over. -/
def turn (r : StreamReader) (D : Decompressors) (input : Bytes) :
    Read PyError (List McapRecord × Bool) := do
  let start ← get
  let (opcode, length) ← r.readHeader ReadDataStream.read
  let c ← get
  let record ← readRecord ReadDataStream.read opcode length
  lift (r.checkDataEnd (crc32 (input.take start.pos)).toNat record)
  skipPadding ReadDataStream.read c.pos length
  lift (r.deliver (fun chunk => breakupChunk D chunk r.validateCrcs) record)

/-- The loop of a reader with the given turns: it ends behind a footer, at the magic bytes. -/
def loop (turn : Read PyError (List McapRecord × Bool)) (magic : Read PyError Unit) :
    Nat → Cursor → Yields
  | 0, _ => ([], none)
  | fuel + 1, c =>
      match turn c with
      | .error e => ([], some e)
      | .ok ((records, true), c) =>
          (records, match magic c with
            | .error e => some e
            | .ok _ => none)
      | .ok ((records, false), c) =>
          let (more, e) := loop turn magic fuel c
          (records ++ more, e)

/-- The magic bytes at the start are read, unless they are skipped, and then the records. -/
def run (r : StreamReader) (turn : Read PyError (List McapRecord × Bool))
    (magic : Read PyError Unit) (input : Bytes) : Yields :=
  if r.skipMagic then loop turn magic (input.length + 1) (.new input)
  else
    match magic (.new input) with
    | .error e => ([], some e)
    | .ok (_, c) => loop turn magic (input.length + 1) c

/-- `StreamReader.records`.  A turn takes bytes, so that there are no more turns than bytes. -/
def records (r : StreamReader) (D : Decompressors) (input : Bytes) : Yields :=
  r.run (r.turn D input) (readMagic ReadDataStream.read) input

end StreamReader
end Py
end Mcap

import Mcap.GoParse

/-! # The Go lexer

`Lexer` of `lexer.go`.  Its base reader is a byte string with a position, which may be an
`io.ReadSeeker`.  The active reader is the base reader or, inside a chunk, what `loadChunk` put in
its place: a limited reader over the base reader, a decompressor over such a reader, or the bytes of
a chunk that was validated.

A decompressor is taken at what the lexer can see of it: the bytes that it yields for its source,
the error with which it ends, and how many bytes of the source it has taken at each time.  The
latter matters since the lexer goes on with the base reader wherever the decompressor left it.

`turn` is one turn of the loop of `Next`.  The loop need not end: a reader that can seek may be
sent backwards by an attachment.  `next` therefore has fuel.
-/
namespace Mcap
namespace Go

/-! ## Readers -/

/-- What a decompressor makes of its source. -/
structure Decoding where
  bytes : Bytes
  /-- The error behind the bytes: `io.EOF` if all is well. -/
  error : Error
  /-- How much of the source is taken when a number of the bytes has been read. -/
  taken : Nat → Nat
  /-- How much of the source is taken when the error has been returned. -/
  takenAtEnd : Nat

/-- A `ResettableReader` that is reset to a source. -/
abbrev Decompressor := Bytes → Except Error Decoding

/-- The readers of the compression packages: `zstd.NewReader` and `lz4.NewReader`. -/
structure Unpackers where
  zstd : Decompressor
  lz4 : Bytes → Decoding

/-- The base reader. -/
structure Source where
  bytes : Bytes
  pos : Nat
  /-- The reader is an `io.ReadSeeker`. -/
  seeks : Bool
deriving DecidableEq

/-- The bytes that a source still yields. -/
def Source.rest (s : Source) : Bytes := s.bytes.drop s.pos

/-- The active reader of a lexer. -/
inductive Active
  /-- The base reader itself. -/
  | base
  /-- `io.LimitedReader` over the base reader. -/
  | limited (left : Int)
  /-- A decompressor over a limited reader that began at `start` of the base reader; `read` of its
  bytes have been read. -/
  | decoder (d : Decoding) (start read : Nat)
  /-- `bytes.Reader`. -/
  | buffer (bytes : Bytes) (pos : Nat)

/-- `int64(n)`, for a number below `2 ^ 64`. -/
def int64 (n : Nat) : Int := if n < 2 ^ 63 then n else (n : Int) - (2 ^ 64 : Nat)

/-! ## Tokens and options -/

/-- `TokenType`. -/
inductive TokenType
  | header
  | footer
  | schema
  | channel
  | message
  | chunk
  | messageIndex
  | chunkIndex
  | attachmentIndex
  | statistics
  | metadata
  | metadataIndex
  | summaryOffset
  | dataEnd
  | error
  | invalidChunk
deriving DecidableEq

/-- A token that is returned without an error. -/
structure Token where
  type : TokenType
  record : Bytes
deriving DecidableEq

/-- The token type of an opcode; opcodes that are not recognized are skipped. -/
def tokenType? (opcode : UInt8) : Option TokenType :=
  if opcode = op.MESSAGE then some .message
  else if opcode = op.HEADER then some .header
  else if opcode = op.SCHEMA then some .schema
  else if opcode = op.DATA_END then some .dataEnd
  else if opcode = op.CHANNEL then some .channel
  else if opcode = op.FOOTER then some .footer
  else if opcode = op.ATTACHMENT_INDEX then some .attachmentIndex
  else if opcode = op.CHUNK_INDEX then some .chunkIndex
  else if opcode = op.STATISTICS then some .statistics
  else if opcode = op.MESSAGE_INDEX then some .messageIndex
  else if opcode = op.CHUNK then some .chunk
  else if opcode = op.METADATA then some .metadata
  else if opcode = op.METADATA_INDEX then some .metadataIndex
  else if opcode = op.SUMMARY_OFFSET then some .summaryOffset
  else none

/-- `OpReserved`. -/
def opReserved : UInt8 := 0

/-- The text of `OpCode.String`. -/
def opcodeName (opcode : UInt8) : String :=
  if opcode = opReserved then "reserved"
  else if opcode = op.HEADER then "header"
  else if opcode = op.FOOTER then "footer"
  else if opcode = op.SCHEMA then "schema"
  else if opcode = op.CHANNEL then "channel"
  else if opcode = op.MESSAGE then "message"
  else if opcode = op.CHUNK then "chunk"
  else if opcode = op.MESSAGE_INDEX then "message index"
  else if opcode = op.CHUNK_INDEX then "chunk index"
  else if opcode = op.ATTACHMENT then "attachment"
  else if opcode = op.ATTACHMENT_INDEX then "attachment index"
  else if opcode = op.STATISTICS then "statistics"
  else if opcode = op.METADATA then "metadata"
  else if opcode = op.METADATA_INDEX then "metadata index"
  else if opcode = op.SUMMARY_OFFSET then "summary offset"
  else if opcode = op.DATA_END then "data end"
  else "<unrecognized opcode 0x" ++ String.ofList
    [Nat.digitChar (opcode.toNat / 16), Nat.digitChar (opcode.toNat % 16)] ++ ">"

/-- The fields of an `AttachmentReader`, and whether it computes the checksum of its data. -/
structure AttachmentReader where
  logTime : UInt64
  createTime : UInt64
  name : Bytes
  mediaType : Bytes
  dataSize : UInt64
  computeCRC : Bool
deriving DecidableEq

/-- `LexerOptions`.  The callback is shown an attachment and the rest of its record: it reads a
number of these bytes, and may fail. -/
structure LexerOptions where
  skipMagic : Bool
  validateChunkCRCs : Bool
  computeAttachmentCRCs : Bool
  emitChunks : Bool
  emitInvalidChunks : Bool
  maxDecompressedChunkSize : Int
  maxRecordSize : Int
  attachmentCallback : Option (AttachmentReader → Bytes → Nat × Option Error)
  decompressors : Bytes → Option Decompressor

/-- `Lexer`.  It is in a chunk if its reader is not the base reader.  Of the buffer for
uncompressed chunks the length matters. -/
structure Lexer where
  source : Source
  reader : Active
  room : Nat
  opts : LexerOptions

/-- `NewLexer`. -/
def newLexer (source : Source) (opts : LexerOptions) : Except Error Lexer :=
  if opts.skipMagic then .ok ⟨source, .base, 0, opts⟩
  else if source.rest.take MAGIC.length = MAGIC then
    .ok ⟨{ source with pos := source.pos + MAGIC.length }, .base, 0, opts⟩
  else .error (.badMagic (source.rest.take MAGIC.length))

/-- `math.MaxInt32`. -/
def maxInt32 : Nat := 2 ^ 31 - 1

/-- `ErrLengthOutOfRange`. -/
def errLengthOutOfRange : Error := .text "length out of int32 range"

/-- One turn of the loop of `Next`: it returns, or goes on with a buffer of some capacity. -/
inductive Turn
  | token (t : Token)
  | fail (type : TokenType) (err : Error)
  | panic
  | again (capacity : Nat)
deriving DecidableEq

namespace Lexer

/-! ## Reading -/

/-- `inChunk`. -/
def inChunk (l : Lexer) : Bool :=
  match l.reader with
  | .base => false
  | _ => true

/-- The bytes that the active reader still yields. -/
def available (l : Lexer) : Bytes :=
  match l.reader with
  | .base => l.source.rest
  | .limited left => l.source.rest.take left.toNat
  | .decoder d _ read => d.bytes.drop read
  | .buffer bytes pos => bytes.drop pos

/-- The error behind these bytes. -/
def final (l : Lexer) : Error :=
  match l.reader with
  | .decoder d _ _ => d.error
  | _ => .eof

/-- `k` bytes are read; `ended` says that there were no more, and the error was returned. -/
def advance (l : Lexer) (k : Nat) (ended : Bool) : Lexer :=
  match l.reader with
  | .base => { l with source := { l.source with pos := l.source.pos + k } }
  | .limited left =>
      { l with source := { l.source with pos := l.source.pos + k }, reader := .limited (left - k) }
  | .decoder d start read =>
      { l with
        source := { l.source with
          pos := start + if ended then d.takenAtEnd else d.taken (read + k) }
        reader := .decoder d start (read + k) }
  | .buffer bytes pos => { l with reader := .buffer bytes (pos + k) }

/-- `io.ReadFull`: the bytes that were read, and the error if they are too few. -/
def readFull (l : Lexer) (n : Nat) : Bytes × Option Error × Lexer :=
  if n ≤ l.available.length then (l.available.take n, none, l.advance n false)
  else
    (l.available, some (if l.available ≠ [] ∧ l.final = .eof then .unexpectedEOF else l.final),
      l.advance l.available.length true)

/-- `Seek(n, io.SeekCurrent)`: the new position. -/
def seek (pos : Nat) (n : Int) : Except Error Nat :=
  if 0 ≤ pos + n ∧ (pos + n).toNat < 2 ^ 63 then .ok (pos + n).toNat
  else .error (.text "bytes.Reader.Seek: negative position")

/-- `io.CopyN(io.Discard, l.reader, n)`. -/
def discard (l : Lexer) (n : Int) : Except Error Unit × Lexer :=
  if n.toNat ≤ l.available.length then (.ok (), l.advance n.toNat false)
  else (.error l.final, l.advance l.available.length true)

/-- `skipReader(l.reader, n)`: a reader that can seek is sought, past its end if need be. -/
def skipReader (l : Lexer) (n : Int) : Except Error Unit × Lexer :=
  match l.reader with
  | .buffer bytes pos =>
      match seek pos n with
      | .ok pos => (.ok (), { l with reader := .buffer bytes pos })
      | .error e => (.error e, l)
  | .base =>
      if l.source.seeks then
        match seek l.source.pos n with
        | .ok pos => (.ok (), { l with source := { l.source with pos } })
        | .error e => (.error e, l)
      else l.discard n
  | _ => l.discard n

/-! ## Attachments -/

/-- `io.ReadFull` over bytes, from an offset on, that end with the error `final`. -/
def fullAt (bytes : Bytes) (final : Error) (offset n : Nat) : Except Error (Bytes × Nat) :=
  if offset + n ≤ bytes.length then .ok ((bytes.drop offset).take n, offset + n)
  else .error (if offset < bytes.length ∧ final = .eof then .unexpectedEOF else final)

/-- `readUint64`. -/
def readUint64 (bytes : Bytes) (final : Error) (offset : Nat) : Except Error (UInt64 × Nat) := do
  let (buf, offset) ← fullAt bytes final offset 8
  pure (.ofNat (ofLe buf), offset)

/-- `readPrefixedString`. -/
def readPrefixedString (bytes : Bytes) (final : Error) (offset : Nat) :
    Except Error (Bytes × Nat) := do
  let (buf, offset) ← fullAt bytes final offset 4
  fullAt bytes final offset (ofLe buf)

/-- `parseAttachmentReader`: the fields in front of the data, and their length. -/
def parseAttachmentReader (bytes : Bytes) (final : Error) (computeCRC : Bool) :
    Except Error (AttachmentReader × Nat) := do
  let (logTime, offset) ← (readUint64 bytes final 0).mapError
    (.wrapped "failed to read record time")
  let (createTime, offset) ← (readUint64 bytes final offset).mapError
    (.wrapped "failed to read create time")
  let (name, offset) ← (readPrefixedString bytes final offset).mapError
    (.wrapped "failed to read attachment name")
  let (mediaType, offset) ← (readPrefixedString bytes final offset).mapError
    (.wrapped "failed to read media type")
  let (dataSize, offset) ← (readUint64 bytes final offset).mapError
    (.wrapped "failed to read attachment data size")
  pure ({ logTime, createTime, name, mediaType, dataSize, computeCRC }, offset)

/-- The end of an attachment is skipped: `n` bytes. -/
def skipAttachment (l : Lexer) (capacity : Nat) (n : Int) : Turn × Lexer :=
  match l.skipReader n with
  | (.ok (), l) => (.again capacity, l)
  | (.error e, l) =>
      (.fail .error (.wrapped "failed to consume unhandled attachment data" e), l)

/-- An attachment of which `n` bytes belong to the record. -/
def attachmentTurn (l : Lexer) (capacity : Nat) (n : Int) : Turn × Lexer :=
  match l.opts.attachmentCallback with
  | none => l.skipAttachment capacity n
  | some callback =>
      let bytes := l.available.take n.toNat
      let short : Bool := l.available.length < n.toNat
      match parseAttachmentReader bytes (if short then l.final else .eof)
          l.opts.computeAttachmentCRCs with
      | .error e =>
          (.fail .error (.wrapped "failed to parse attachment" e), l.advance bytes.length short)
      | .ok (attachmentReader, offset) =>
          let (read, err) := callback attachmentReader (bytes.drop offset)
          let read := offset + min read (bytes.drop offset).length
          match err with
          | some e => (.fail .error (.wrapped "failed to handle attachment" e), l.advance read false)
          | none => (l.advance read false).skipAttachment capacity (n - read)

/-! ## Chunks -/

/-- `io.ReadFull`, as a step of `loadChunk`. -/
def read (n : Nat) : Exec Lexer Error (Bytes × Option Error) := fun l =>
  let (bytes, err, l) := l.readFull n
  (.ok (bytes, err), l)

/-- The fields in front of the records of a chunk. -/
structure ChunkHead where
  uncompressedSize : Nat
  uncompressedCRC : UInt32
  compression : Bytes
  recordsLength : Nat
deriving DecidableEq

/-- The compression and the length of the records.  They are read into a buffer of 32 bytes; the
sum of the lengths is one of 32 bits. -/
def readCompression (recordLen : Nat) (top : Bytes) : Exec Lexer Error ChunkHead := do
  let compressionLen : UInt32 := .ofNat (ofLe ((top.drop 28).take 4))
  if 32 < (compressionLen + 8).toNat then Exec.abort
  else
    let (field, err) ← read (compressionLen + 8).toNat
    match err with
    | some e =>
        Exec.fail (if Error.is .unexpectedEOF e || Error.is .eof e then
          .truncatedRecord op.CHUNK (top.length + field.length) (.ofNat recordLen)
          else .wrapped "failed to read compression from chunk" e)
    | none =>
        if 32 < compressionLen.toNat then Exec.abort
        else
          pure
            { uncompressedSize := ofLe ((top.drop 16).take 8)
              uncompressedCRC := .ofNat (ofLe ((top.drop 24).take 4))
              compression := field.take compressionLen.toNat
              recordsLength := ofLe ((field.drop compressionLen.toNat).take 8) }

/-- The fields in front of the records. -/
def readChunkHead (recordLen : Nat) : Exec Lexer Error ChunkHead := do
  let (top, err) ← read (8 + 8 + 8 + 4 + 4)
  match err with
  | some e =>
      Exec.fail (if Error.is .unexpectedEOF e then
        .truncatedRecord op.CHUNK top.length (.ofNat recordLen) else e)
  | none => readCompression recordLen top

/-- The text of a compression in an error. -/
def compressionText (compression : Bytes) : String :=
  String.ofList (compression.map fun b => Char.ofNat b.toNat)

/-- The reader of the records becomes the active reader. -/
def openChunk (D : Unpackers) (head : ChunkHead) : Exec Lexer Error Unit := fun l =>
  let left := int64 head.recordsLength
  let source := l.source.rest.take left.toNat
  let decode (d : Decoding) : Res Error Unit × Lexer :=
    (.ok (), { l with reader := .decoder d l.source.pos 0 })
  match l.opts.decompressors head.compression with
  | some decompressor =>
      match decompressor source with
      | .ok d => decode d
      | .error e => (.err (.wrapped "failed to reset custom decompressor" e), l)
  | none =>
      if head.compression = [] then (.ok (), { l with reader := .limited left })
      else if head.compression = utf8 "zstd" then
        match D.zstd source with
        | .ok d => decode d
        | .error e => (.err e, l)
      else if head.compression = utf8 "lz4" then decode (D.lz4 source)
      else (.err (.text ("unsupported compression: " ++ compressionText head.compression)), l)

/-- The buffer for uncompressed chunks has room for `size` bytes, or is made anew; the number of
its bytes is one of 64 bits. -/
def makeRoom (size : Nat) : Exec Lexer Error Unit := fun l =>
  if l.room < size then
    let n := size * 2 % 2 ^ 64
    if n < maxInt32 then (.ok (), { l with room := n })
    else (.err (.wrapped "failed to allocate chunk buffer" errLengthOutOfRange), { l with room := 0 })
  else (.ok (), l)

/-- Behind an LZ4 frame nothing may be left. -/
def readExtra (compression : Bytes) : Exec Lexer Error Unit := fun l =>
  if compression = utf8 "lz4" then
    let rest := l.advance l.available.length true
    if l.final ≠ .eof then (.err (.wrapped "failed to read extra bytes" l.final), rest)
    else if l.available ≠ [] then
      (.err (.text ("encountered unexpected bytes after chunk: " ++ compressionText l.available)),
        rest)
    else (.ok (), rest)
  else (.ok (), l)

/-- The checksum of a chunk that is decompressed; 0 stands for none. -/
def checkChunk (head : ChunkHead) (data : Bytes) : Exec Lexer Error Unit := fun l =>
  if 0 < head.uncompressedCRC ∧ crc32 data ≠ head.uncompressedCRC then
    (.err (.invalidChunkCrc head.uncompressedCRC (crc32 data)), l)
  else (.ok (), { l with reader := .buffer data 0 })

/-- The records of a chunk are read into the buffer. -/
def fillBuffer (head : ChunkHead) : Exec Lexer Error Unit := do
  let l ← Exec.get
  if l.room < head.uncompressedSize then Exec.abort
  else
    let (data, err) ← read head.uncompressedSize
    match err with
    | some e => Exec.fail (.wrapped "failed to decompress chunk" e)
    | none =>
        let _ ← readExtra head.compression
        checkChunk head data

/-- The records of a chunk are decompressed at once and validated. -/
def validateChunk (head : ChunkHead) : Exec Lexer Error Unit := do
  let l ← Exec.get
  if 0 < l.opts.maxDecompressedChunkSize ∧
      l.opts.maxDecompressedChunkSize < head.uncompressedSize then
    Exec.fail (.text "chunk exceeds configured maximum size")
  else
    let _ ← makeRoom head.uncompressedSize
    fillBuffer head

/-- `loadChunk`. -/
def loadChunk (D : Unpackers) (recordLen : Nat) : Exec Lexer Error Unit := do
  let l ← Exec.get
  if l.inChunk then Exec.fail (.text "detected nested chunk")
  else
    let head ← readChunkHead recordLen
    let _ ← openChunk D head
    if l.opts.validateChunkCRCs then validateChunk head else pure ()

/-- A chunk is opened. -/
def chunkTurn (D : Unpackers) (l : Lexer) (capacity recordLen : Nat) : Turn × Lexer :=
  match loadChunk D recordLen l with
  | (.ok (), l) => (.again capacity, l)
  | (.err e, l) =>
      match e with
      | .invalidChunkCrc _ _ =>
          (.fail (if l.opts.emitInvalidChunks then .invalidChunk else .error) e, l)
      | _ => (.fail .error e, l)
  | (.panic, l) => (.panic, l)

/-! ## Records -/

/-- A record that is read as a whole. -/
def recordTurn (l : Lexer) (capacity : Nat) (opcode : UInt8) (recordLen : Nat) : Turn × Lexer :=
  if capacity < recordLen ∧ ¬ recordLen < maxInt32 then
    (.fail .error (.wrapped ("failed to allocate " ++ toString recordLen ++ " bytes for " ++
      opcodeName opcode ++ " token") errLengthOutOfRange), l)
  else
    match l.readFull recordLen with
    | (record, some e, l) =>
        (.fail .error (if Error.is .unexpectedEOF e then
          .truncatedRecord opcode record.length (.ofNat recordLen) else e), l)
    | (record, none, l) =>
        match tokenType? opcode with
        | some type => (.token ⟨type, record⟩, l)
        | none =>
            if opcode = opReserved then (.fail .error (.text "invalid zero opcode"), l)
            else (.again (max capacity recordLen), l)

/-- The header of a record could not be read: the end of a chunk, or of the file. -/
def endTurn (l : Lexer) (capacity : Nat) (head : Bytes) (e : Error) : Turn × Lexer :=
  if l.inChunk && (Error.is .eof e || Error.is .unexpectedEOF e) then
    (.again capacity, { l with reader := .base })
  else if Error.is .unexpectedEOF e then
    if head = MAGIC then (.fail .error .eof, l)
    else (.fail .error (.truncatedRecord (head.headD 0) head.length 0), l)
  else (.fail .error e, l)

/-- One turn of `Next`, with a buffer of the given capacity. -/
def turn (D : Unpackers) (capacity : Nat) (l : Lexer) : Turn × Lexer :=
  match l.readFull 9 with
  | (head, some e, l) => l.endTurn capacity head e
  | (head, none, l) =>
      let opcode := head.headD 0
      let recordLen := ofLe (head.drop 1)
      if 0 < l.opts.maxRecordSize ∧ l.opts.maxRecordSize < recordLen then
        (.fail .error (.text "record exceeds configured maximum size"), l)
      else if opcode = op.CHUNK ∧ l.opts.emitChunks = false then l.chunkTurn D capacity recordLen
      else if opcode = op.ATTACHMENT then l.attachmentTurn capacity (int64 recordLen)
      else l.recordTurn capacity opcode recordLen

/-- What `Next` returns. -/
inductive Result
  | token (t : Token)
  | fail (type : TokenType) (err : Error)
  | panic
deriving DecidableEq

/-- `Next`, with a buffer of the given capacity; it takes at most `fuel` turns. -/
def next (D : Unpackers) : Nat → Nat → Lexer → Option (Result × Lexer)
  | 0, _, _ => none
  | fuel + 1, capacity, l =>
      match l.turn D capacity with
      | (.token t, l) => some (.token t, l)
      | (.fail type e, l) => some (.fail type e, l)
      | (.panic, l) => some (.panic, l)
      | (.again capacity, l) => next D fuel capacity l

end Lexer

end Go
end Mcap

import Mcap.TsShift

/-! # Valid files, for the stream reader of the TypeScript library

A file is a list of records between magic bytes, the last of which is a footer.  Each of them is whole
in itself, a chunk has records of its own that are whole in its data, there is one header at most,
and a message comes behind the record of its channel (`ValidFile`).  `ValidFile.records` are the
records that there are to read.

`Ahead` says the same from the place of a generator on: which bytes and which records there are to
come.
-/
namespace Mcap
namespace Ts

/-! ## Pieces -/

/-- A record with its bytes. -/
structure Piece where
  opcode : UInt8
  body : Bytes
  record : TypedMcapRecord
deriving DecidableEq

def Piece.bytes (p : Piece) : Bytes := frame p.opcode p.body

/-- The bytes of records. -/
def bytesOf (pieces : List Piece) : Bytes := pieces.flatMap Piece.bytes

@[simp] theorem bytesOf_nil : bytesOf [] = [] := rfl

@[simp] theorem bytesOf_cons (p : Piece) (pieces : List Piece) :
    bytesOf (p :: pieces) = p.bytes ++ bytesOf pieces := rfl

theorem bytesOf_append (pieces pieces' : List Piece) :
    bytesOf (pieces ++ pieces') = bytesOf pieces ++ bytesOf pieces' := List.flatMap_append

/-- A record of a file, and the records in it if it is a chunk. -/
structure Entry where
  piece : Piece
  inner : List Piece

/-- The records that are read for a record of a file. -/
def Entry.shown (opts : McapReaderOptions) (e : Entry) : List TypedMcapRecord :=
  match e.piece.record with
  | .chunk chunk => (if opts.includeChunks then [.chunk chunk] else []) ++ e.inner.map Piece.record
  | record => [record]

def TypedMcapRecord.header? : TypedMcapRecord → Option Header
  | .header record => some record
  | _ => none

/-! ## Files -/

section
variable (decode : Bytes → String) (opts : McapReaderOptions)

/-- A record that is whole in itself. -/
def Piece.Whole (p : Piece) : Prop := Ts.Whole decode opts.validateCrcs p.opcode p.body p.record

/-- **The data of a chunk** are those of records that may be in it. -/
structure Unpacks (chunk : Chunk) (inner : List Piece) : Prop where
  buffer : ∀ header, chunkBuffer opts header chunk = .ok (bytesOf inner)
  whole : ∀ p ∈ inner, p.Whole decode opts
  allowed : ∀ p ∈ inner, p.record.inChunk = true
  size : (bytesOf inner).length ≤ MAX_SAFE_INTEGER

/-- **A record of a file**, before the footer. -/
structure Entry.Valid (e : Entry) : Prop where
  whole : e.piece.Whole decode opts
  notFooter : ∀ footer, e.piece.record ≠ .footer footer
  unpacks : ∀ chunk, e.piece.record = .chunk chunk → Unpacks decode opts chunk e.inner

/-- **Channels and messages in order.** -/
structure Consistent (records : List TypedMcapRecord) : Prop where
  channels : ∀ front channel back, records = front ++ .channel channel :: back →
    ∀ existing, .channel existing ∈ front → existing.id = channel.id →
      McapStreamReader.isChannelEqual existing channel = true
  messages : ∀ front message back, records = front ++ .message message :: back →
    ∃ channel, .channel channel ∈ front ∧ channel.id = message.channelId

/-- **A valid file.** -/
structure ValidFile (file : Bytes) where
  entries : List Entry
  last : Piece
  footer : Footer
  file_eq : file = (if opts.noMagicPrefix then [] else MAGIC) ++
    (bytesOf (entries.map Entry.piece) ++ (last.bytes ++ MAGIC))
  valid : ∀ e ∈ entries, e.Valid decode opts
  header : ((entries.map fun e => e.piece.record).filterMap TypedMcapRecord.header?).length ≤ 1
  last_whole : last.Whole decode opts
  last_eq : last.record = .footer footer
  consistent : Consistent (entries.flatMap (Entry.shown opts) ++ [.footer footer])
  size : file.length ≤ MAX_SAFE_INTEGER

variable {decode opts}

/-- The records of a file, with those of its chunks. -/
def ValidFile.records {file : Bytes} (f : ValidFile decode opts file) : List TypedMcapRecord :=
  f.entries.flatMap (Entry.shown opts) ++ [.footer f.footer]

end

/-! ## What is ahead -/

section
variable (decode : Bytes → String) (opts : McapReaderOptions)

/-- **What is ahead of a generator**: bytes of the file, and records. -/
inductive Ahead : Generator → Bytes → List TypedMcapRecord → Prop
  | magic {bytes records} (h : Ahead (.records none) bytes records) :
      Ahead .magic (MAGIC ++ bytes) records
  | plain {header bytes records} (p : Piece) (hwhole : p.Whole decode opts)
      (hplain : ∀ offset, onRecord opts header p.record offset =
        .ok (.yields (some p.record) (.records header) offset))
      (h : Ahead (.records header) bytes records) :
      Ahead (.records header) (p.bytes ++ bytes) (p.record :: records)
  | header {bytes records} (p : Piece) (record : Header) (hwhole : p.Whole decode opts)
      (hrecord : p.record = .header record) (h : Ahead (.records (some record)) bytes records) :
      Ahead (.records none) (p.bytes ++ bytes) (.header record :: records)
  | chunk {header bytes records} (p : Piece) (chunk : Chunk) (hwhole : p.Whole decode opts)
      (hrecord : p.record = .chunk chunk) (h : Ahead (.chunk header chunk) bytes records) :
      Ahead (.records header) (p.bytes ++ bytes)
        ((if opts.includeChunks then [.chunk chunk] else []) ++ records)
  | unpacks {header chunk buffer bytes records}
      (hbuffer : chunkBuffer opts header chunk = .ok buffer)
      (h : Ahead (.inChunk header ⟨buffer, 0⟩) bytes records) :
      Ahead (.chunk header chunk) bytes records
  | inner {header r r' record bytes records}
      (hparse : parseRecord decode opts.validateCrcs r = .ok (some record, r'))
      (hallowed : record.inChunk = true) (h : Ahead (.inChunk header r') bytes records) :
      Ahead (.inChunk header r) bytes (record :: records)
  | close {header r r' bytes records}
      (hparse : parseRecord decode opts.validateCrcs r = .ok (none, r'))
      (hempty : r'.bytesRemaining = 0) (h : Ahead (.records header) bytes records) :
      Ahead (.inChunk header r) bytes records
  | footer {header bytes records} (p : Piece) (footer : Footer) (hwhole : p.Whole decode opts)
      (hrecord : p.record = .footer footer) (h : Ahead (.footer header footer) bytes records) :
      Ahead (.records header) (p.bytes ++ bytes) records
  | last {header footer} : Ahead (.footer header footer) MAGIC [.footer footer]

end

end Ts
end Mcap

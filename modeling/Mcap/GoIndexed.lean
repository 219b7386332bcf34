import Mcap.GoReader
import Mcap.GoLexing
import Mathlib.Data.List.Sort

/-! # The indexed iterator of the Go library

`indexedMessageIterator` of `indexed_message_iterator.go`, and `Reader.Messages` of `reader.go`.
The iterator reads the summary section, sorts the chunk indexes by the order of reading, and then
loads a chunk or yields a message, in turns.  Every read of the file is preceded by a seek, so that
the position of the file is no part of the state.

What the iterator uses of the runtime and of the compression packages is a `Runtime`.  A slot for a
chunk keeps its buffer, and what is left of an earlier chunk in it can be seen by a later one.

`sort.Slice` is not stable; it is taken to be, since the sort keys end with the offset of the chunk.
-/
namespace Mcap
namespace Go

/-- `chunkSlot`. -/
structure ChunkSlot where
  buf : Slice
  unreadMessages : Nat
deriving DecidableEq

/-- `messageIndexWithChunkSlot`. -/
structure MessageIndexWithChunkSlot where
  timestamp : UInt64
  offset : Nat
  chunkSlotIndex : Nat
deriving DecidableEq

/-- The runtime and the compression packages. -/
structure Runtime where
  unpackers : Unpackers
  /-- `DecodeAll` appends what it decodes to the empty slice with this array. -/
  decodeAll : Bytes → Slice → Slice × Option Error
  /-- The largest size that `make` accepts. -/
  maxAlloc : Nat
  /-- `int(float64(n) * chunkBufferGrowthMultiple)`. -/
  grow : Nat → Int

/-- `indexedMessageIterator`; `file` is what is behind its `io.ReadSeeker`. -/
structure IndexedMessageIterator where
  file : Bytes
  topics : List Bytes
  start : UInt64
  end_ : UInt64
  order : ReadOrder
  channels : BTreeMap UInt16 Channel
  schemas : BTreeMap UInt16 Schema
  statistics : Option Statistics
  chunkIndexes : List ChunkIndex
  attachmentIndexes : List AttachmentIndex
  metadataIndexes : List MetadataIndex
  footer : Option Footer
  fileSize : Nat
  curChunkIndex : Nat
  messageIndexes : List MessageIndexWithChunkSlot
  curMessageIndex : Nat
  chunkSlots : List ChunkSlot
  hasReadSummarySection : Bool
  recordBuf : Slice
  metadataCallback : Option (Metadata → Option Error)

/-- `io.ReadFull` of `n` bytes at a position: what was read, and the error if it is too little. -/
def readAt (file : Bytes) (pos n : Nat) : Bytes × Option Error :=
  let bytes := (file.drop pos).take n
  (bytes, if bytes.length = n then none else some (if bytes = [] then .eof else .unexpectedEOF))

/-- `checkedAdd`. -/
def checkedAdd (a b : Nat) : Option Nat := if a + b < 2 ^ 64 then some (a + b) else none

/-- `ErrBadOffset`, wrapped in what is wrong with it; this text comes behind its own. -/
def errBadOffset (context : String) : Error := .wrapped context (.text "invalid offset")

/-- `%v` of a byte slice. -/
def bytesText (bytes : Bytes) : String :=
  "[" ++ " ".intercalate (bytes.map fun b => toString b.toNat) ++ "]"

namespace IndexedMessageIterator

/-- `seekTo`: the position. -/
def seekTo (offset : UInt64) : Exec IndexedMessageIterator Error Nat := do
  let it ← Exec.get
  if 2 ^ 63 ≤ offset.toNat then
    Exec.fail (errBadOffset (toString offset.toNat ++ " > int64 max"))
  else if it.fileSize ≤ offset.toNat then
    Exec.fail (errBadOffset (toString offset.toNat ++ " past file end " ++ toString it.fileSize))
  else pure offset.toNat

/-! ## The summary section -/

/-- The order in which chunks are loaded. -/
def sortChunkIndexes (order : ReadOrder) (l : List ChunkIndex) : List ChunkIndex :=
  match order with
  | .file => l.insertionSort fun a b => a.chunkStartOffset ≤ b.chunkStartOffset
  | .logTime => l.insertionSort fun a b =>
      a.messageStartTime < b.messageStartTime ∨
        (a.messageStartTime = b.messageStartTime ∧ a.chunkStartOffset ≤ b.chunkStartOffset)
  | .reverseLogTime => l.insertionSort fun a b =>
      b.messageEndTime < a.messageEndTime ∨
        (a.messageEndTime = b.messageEndTime ∧ b.chunkStartOffset ≤ a.chunkStartOffset)

/-- A chunk is loaded if it overlaps with the times that are asked for, and if one of the channels
that its index names was selected so far; without message indexes nothing is known of them. -/
def wants (it : IndexedMessageIterator) (idx : ChunkIndex) : Bool :=
  (decide (it.end_ = 0 ∧ it.start = 0) ||
    decide (idx.messageStartTime < it.end_ ∧ it.start ≤ idx.messageEndTime)) &&
  (idx.messageIndexOffsets.isEmpty ||
    idx.messageIndexOffsets.toList.any fun e => it.channels.contains e.1)

/-- A token of the summary section; the result says whether it was the last one. -/
def onSummaryToken (t : Token) : Exec IndexedMessageIterator Error Bool := do
  match t.type with
  | .schema =>
      let schema ← Exec.lift (wrap "failed to parse schema" (parseSchema t.record))
      Exec.modify fun it => { it with schemas := it.schemas.insert schema.id schema }
      pure false
  | .channel =>
      let channelInfo ← Exec.lift (wrap "failed to parse channel info" (parseChannel t.record))
      Exec.modify fun it =>
        if selects it.topics channelInfo then
          { it with channels := it.channels.insert channelInfo.id channelInfo }
        else it
      pure false
  | .attachmentIndex =>
      let idx ← Exec.lift (wrap "failed to parse attachment index" (parseAttachmentIndex t.record))
      Exec.modify fun it => { it with attachmentIndexes := it.attachmentIndexes ++ [idx] }
      pure false
  | .metadataIndex =>
      let idx ← Exec.lift (wrap "failed to parse metadata index" (parseMetadataIndex t.record))
      Exec.modify fun it => { it with metadataIndexes := it.metadataIndexes ++ [idx] }
      pure false
  | .chunkIndex =>
      let idx ← Exec.lift (wrap "failed to parse chunk index" (parseChunkIndex t.record))
      Exec.modify fun it =>
        if it.wants idx then { it with chunkIndexes := it.chunkIndexes ++ [idx] } else it
      pure false
  | .statistics =>
      let stats ← Exec.lift (wrap "failed to parse statistics" (parseStatistics t.record))
      Exec.modify fun it => { it with statistics := some stats }
      pure false
  | .footer =>
      Exec.modify fun it =>
        { it with
          chunkIndexes := sortChunkIndexes it.order it.chunkIndexes
          hasReadSummarySection := true }
      pure true
  | _ => pure false

/-- The tokens of the summary section. -/
def readSummary (D : Unpackers) : Nat → Lexer → IndexedMessageIterator →
    Option (Res Error Unit × IndexedMessageIterator)
  | 0, _, _ => none
  | fuel + 1, l, it =>
      match l.next D (fuel + 1) 0 with
      | none => none
      | some (.panic, _) => some (.panic, it)
      | some (.fail _ e, _) => some (.err (.wrapped "failed to get next token" e), it)
      | some (.token t, l) =>
          match onSummaryToken t it with
          | (.ok false, it) => readSummary D fuel l it
          | (.ok true, it) => some (.ok (), it)
          | (.err e, it) => some (.err e, it)
          | (.panic, it) => some (.panic, it)

/-- The footer is read, and the start of the summary section, if there is one. -/
def readFooter : Exec IndexedMessageIterator Error (Option Nat) := do
  let it ← Exec.get
  if it.file.length < 8 + 4 + 8 + 8 then
    Exec.fail (.text "bytes.Reader.Seek: negative position")
  else
    let buf := it.file.drop (it.file.length - (8 + 4 + 8 + 8))
    let _ ← Exec.modify fun it => { it with fileSize := it.file.length }
    if buf.drop 20 = MAGIC then
      let footer ← Exec.lift (wrap "failed to parse footer" (parseFooter (buf.take 20)))
      let _ ← Exec.modify fun it => { it with footer := some footer }
      if footer.summaryStart = 0 then
        let _ ← Exec.modify fun it => { it with hasReadSummarySection := true }
        pure none
      else
        let pos ← wrapping "failed to seek to summary start" (seekTo footer.summaryStart)
        pure (some pos)
    else Exec.fail (.badMagic (buf.drop 20))

/-- The lexer of the summary section reads on from there, without seeking. -/
def summaryLexer (file : Bytes) (pos : Nat) : Lexer :=
  ⟨⟨file, pos, false⟩, .base, 0, lexerOptions true false fun _ => none⟩

/-- `parseSummarySection`. -/
def parseSummarySection (D : Unpackers) (fuel : Nat) (it : IndexedMessageIterator) :
    Option (Res Error Unit × IndexedMessageIterator) :=
  match readFooter it with
  | (.ok none, it) => some (.ok (), it)
  | (.ok (some pos), it) => readSummary D fuel (summaryLexer it.file pos) it
  | (.err e, it) => some (.err e, it)
  | (.panic, it) => some (.panic, it)

/-! ## Loading a chunk -/

/-- The buffer for records gets a length, and a new array if that is over its capacity. -/
def resizeRecordBuf (rt : Runtime) (n : Nat) : Exec IndexedMessageIterator Error Unit := do
  let it ← Exec.get
  match it.recordBuf.upTo n with
  | some buf => Exec.modify fun it => { it with recordBuf := buf }
  | none =>
      if rt.maxAlloc < n ∨ rt.grow n < n ∨ rt.maxAlloc < rt.grow n then Exec.abort
      else Exec.modify fun it => { it with recordBuf := .make n (rt.grow n).toNat }

/-- The buffer for records is filled from the file. -/
def fillRecordBuf (pos n : Nat) : Exec IndexedMessageIterator Error Unit := do
  let it ← Exec.get
  let _ ← Exec.modify fun it => { it with recordBuf := it.recordBuf.fill (readAt it.file pos n).1 }
  match (readAt it.file pos n).2 with
  | some e => Exec.fail (.wrapped "failed to read chunk data" e)
  | none => pure ()

/-- The record of a chunk is read. -/
def readChunk (rt : Runtime) (chunkIndex : ChunkIndex) : Exec IndexedMessageIterator Error Chunk := do
  let pos ← seekTo chunkIndex.chunkStartOffset
  let _ ← resizeRecordBuf rt chunkIndex.chunkLength.toNat
  let _ ← fillRecordBuf pos chunkIndex.chunkLength.toNat
  let it ← Exec.get
  match it.recordBuf.behind 9 with
  | none => Exec.abort
  | some buf => Exec.lift (wrap "failed to parse chunk" (parseChunk buf))

/-- The first slot without unread messages, or a new one. -/
def takeSlot : Exec IndexedMessageIterator Error Nat := do
  let it ← Exec.get
  let chunkSlotIndex := it.chunkSlots.findIdx fun slot => slot.unreadMessages = 0
  let _ ← Exec.modify fun it =>
    if chunkSlotIndex = it.chunkSlots.length then
      { it with chunkSlots := it.chunkSlots ++ [⟨.empty, 0⟩] }
    else it
  pure chunkSlotIndex

/-- The buffer of a slot. -/
def setBuf (chunkSlotIndex : Nat) (buf : Slice) : Exec IndexedMessageIterator Error Unit :=
  Exec.modify fun it =>
    { it with chunkSlots := it.chunkSlots.modify chunkSlotIndex fun slot => { slot with buf } }

/-- The buffer of a slot, with room for `bufSize` bytes. -/
def roomFor (rt : Runtime) (buf : Slice) (bufSize : Nat) : Option Slice :=
  match buf.upTo bufSize with
  | some buf => some buf
  | none => if rt.maxAlloc < bufSize then none else some (.make bufSize bufSize)

/-- The text of a compression in an error. -/
def compressionText (compression : Bytes) : String :=
  String.ofList (compression.map fun b => Char.ofNat b.toNat)

/-- The records of a chunk are decompressed into a buffer: the buffer, and the error. -/
def decompress (rt : Runtime) (chunk : Chunk) (buf : Slice) : Slice × Option Error :=
  if chunk.compression = [] then (buf.copy chunk.records, none)
  else if chunk.compression = utf8 "zstd" then
    let (buf, err) := rt.decodeAll chunk.records buf
    (buf, err.map (.wrapped "failed to decode chunk data"))
  else if chunk.compression = utf8 "lz4" then
    let d := rt.unpackers.lz4 chunk.records
    (buf.copy d.bytes,
      if d.bytes.length < chunk.uncompressedSize then
        some (.wrapped "failed to decompress lz4 chunk"
          (if d.error = .eof ∧ d.bytes ≠ [] then .unexpectedEOF else d.error))
      else none)
  else (buf, some (.text ("unsupported compression " ++ compressionText chunk.compression)))

/-- The buffer of a slot is filled with the records of a chunk. -/
def fillSlot (rt : Runtime) (chunkSlotIndex : Nat) (chunk : Chunk) :
    Exec IndexedMessageIterator Error Unit := do
  let it ← Exec.get
  let old := ((it.chunkSlots[chunkSlotIndex]?).map ChunkSlot.buf).getD .empty
  match roomFor rt old chunk.uncompressedSize with
  | none => Exec.abort
  | some buf =>
      let _ ← setBuf chunkSlotIndex (decompress rt chunk buf).1
      match (decompress rt chunk buf).2 with
      | some e => Exec.fail e
      | none => pure ()

/-- A record in the buffer of a slot: its opcode, its content, and where the next one begins. -/
def recordAt (buf : Slice) (bufSize offset : Nat) : Res Error (UInt8 × Bytes × Nat) :=
  if bufSize < offset + 1 + 8 then
    .err (.text ("expected another record in chunk, but left with " ++
      toString (bufSize - offset) ++ " bytes"))
  else
    match buf.between offset (offset + 1 + 8) with
    | none => .panic
    | some opcodeAndLengthBuf =>
        let op := opcodeAndLengthBuf.headD 0
        let recordLen := ofLe (opcodeAndLengthBuf.drop 1)
        let recordStart := offset + 1 + 8
        match checkedAdd recordStart recordLen with
        | none => .err (.text ("record length extends past uint64 range: start: " ++
            toString recordStart ++ ", len: " ++ toString recordLen))
        | some recordEnd =>
            if bufSize < recordEnd then
              .err (.text (opcodeName op ++ " record in chunk has length " ++ toString recordLen ++
                " bytes but only " ++ toString (bufSize - recordStart) ++ " remaining in chunk"))
            else
              match buf.between recordStart recordEnd with
              | none => .panic
              | some recordContent => .ok (op, recordContent, recordEnd)

/-- A message index is added, and counted in its slot. -/
def addMessageIndex (chunkSlotIndex offset : Nat) (timestamp : UInt64)
    (it : IndexedMessageIterator) : IndexedMessageIterator :=
  { it with
    messageIndexes := it.messageIndexes ++ [⟨timestamp, offset, chunkSlotIndex⟩]
    chunkSlots := it.chunkSlots.modify chunkSlotIndex fun slot =>
      { slot with unreadMessages := slot.unreadMessages + 1 } }

/-- The messages of a chunk that are asked for are indexed, from an offset on.  The result says
whether the message indexes have to be sorted: at first or if one is earlier than those in front of
it, of which the last log time is `maxLogTime`.  Each turn moves the offset, so that there are no
more turns than bytes. -/
def indexMessages (chunkSlotIndex bufSize : Nat) :
    Nat → Nat → UInt64 → Bool → Exec IndexedMessageIterator Error Bool
  | 0, _, _, sortingRequired => pure sortingRequired
  | fuel + 1, offset, maxLogTime, sortingRequired =>
      if offset < bufSize then do
        let it ← Exec.get
        let buf := ((it.chunkSlots[chunkSlotIndex]?).map ChunkSlot.buf).getD .empty
        let (op, recordContent, recordEnd) ← Exec.lift (recordAt buf bufSize offset)
        if op = Mcap.op.MESSAGE then
          let msg ← Exec.lift (wrap "could not parse message in chunk" (parseMessage recordContent))
          if it.channels.contains msg.channelID ∧ it.start ≤ msg.logTime ∧ msg.logTime < it.end_ then
            let _ ← Exec.modify (addMessageIndex chunkSlotIndex offset msg.logTime)
            if msg.logTime < maxLogTime then
              indexMessages chunkSlotIndex bufSize fuel recordEnd maxLogTime true
            else indexMessages chunkSlotIndex bufSize fuel recordEnd msg.logTime sortingRequired
          else indexMessages chunkSlotIndex bufSize fuel recordEnd maxLogTime sortingRequired
        else indexMessages chunkSlotIndex bufSize fuel recordEnd maxLogTime sortingRequired
      else pure sortingRequired

/-- The message indexes that are left to be read are truncated if there are none.  The result says
whether there were any: only then has a chunk in order to be sorted with them. -/
def truncate : Exec IndexedMessageIterator Error Bool := do
  let it ← Exec.get
  if it.curMessageIndex = it.messageIndexes.length then
    let _ ← Exec.modify fun it => { it with curMessageIndex := 0, messageIndexes := [] }
    pure false
  else pure true

/-- The message indexes from `startIdx` on are new; those that are left to be read are sorted. -/
def sortMessageIndexes (startIdx : Nat) (sortingRequired : Bool) (it : IndexedMessageIterator) :
    IndexedMessageIterator :=
  let read := it.messageIndexes.take it.curMessageIndex
  match it.order with
  | .file => it
  | .logTime =>
      if sortingRequired then
        { it with
          messageIndexes := read ++ (it.messageIndexes.drop it.curMessageIndex).insertionSort
            fun a b => a.timestamp ≤ b.timestamp }
      else it
  | .reverseLogTime =>
      let reversed := it.messageIndexes.take startIdx ++ (it.messageIndexes.drop startIdx).reverse
      if sortingRequired then
        { it with
          messageIndexes := read ++ (reversed.drop it.curMessageIndex).insertionSort
            fun a b => b.timestamp ≤ a.timestamp }
      else { it with messageIndexes := reversed }

/-- Message indexes that have been read are removed if they are more than the others. -/
def compact (it : IndexedMessageIterator) : IndexedMessageIterator :=
  let unread := it.messageIndexes.drop it.curMessageIndex
  if unread.length < it.curMessageIndex then { it with messageIndexes := unread, curMessageIndex := 0 }
  else it

/-- `loadChunk`. -/
def loadChunk (rt : Runtime) (chunkIndex : ChunkIndex) : Exec IndexedMessageIterator Error Unit := do
  let parsedChunk ← readChunk rt chunkIndex
  let chunkSlotIndex ← takeSlot
  fillSlot rt chunkSlotIndex parsedChunk
  let sortingRequired ← truncate
  let it ← Exec.get
  let sortingRequired ← indexMessages chunkSlotIndex parsedChunk.uncompressedSize
    (parsedChunk.uncompressedSize + 1) 0 0 sortingRequired
  Exec.modify (sortMessageIndexes it.messageIndexes.length sortingRequired)
  Exec.modify compact

/-! ## Metadata -/

/-- `readRecord`, at a position of the file: the opcode and the record, and what becomes of the
buffer. -/
def readRecord (maxAlloc : Nat) (file : Bytes) (pos : Nat) (buf : Slice) :
    Res Error (UInt8 × Slice) × Slice :=
  let shared := decide (9 ≤ buf.cap)
  let header := readAt file pos 9
  let first := (if shared then buf else .make 9 9).fill header.1
  let buf := if shared then first else buf
  match header.2 with
  | some e => (.err (.wrapped "failed to read record header" e), buf)
  | none =>
      let opcode := header.1.headD 0
      let recordLen := ofLe (header.1.drop 1)
      let record := readAt file (pos + 9) recordLen
      match first.upTo recordLen with
      | none =>
          if maxAlloc < recordLen then (.panic, buf)
          else
            match record.2 with
            | some e => (.err (.wrapped "failed to read record" e), buf)
            | none => (.ok (opcode, .of record.1), buf)
      | some data =>
          let data := data.fill record.1
          let buf := if shared then buf.fill record.1 else buf
          match record.2 with
          | some e => (.err (.wrapped "failed to read record" e), buf)
          | none => (.ok (opcode, data), buf)

/-- `readRecord` into the buffer of the iterator, which grows with the record. -/
def readRecordInto (rt : Runtime) (pos : Nat) :
    Exec IndexedMessageIterator Error (UInt8 × Slice) := fun it =>
  match readRecord rt.maxAlloc it.file pos it.recordBuf with
  | (.ok (opcode, data), buf) =>
      (.ok (opcode, data), { it with recordBuf := if buf.cap < data.cap then data else buf })
  | (.err e, buf) => (.err e, { it with recordBuf := buf })
  | (.panic, buf) => (.panic, { it with recordBuf := buf })

/-- The metadata record of an index is read and shown to the callback. -/
def showMetadata (rt : Runtime) (callback : Metadata → Option Error) (idx : MetadataIndex) :
    Exec IndexedMessageIterator Error Unit := do
  let pos ← wrapping "failed to seek to metadata" (seekTo idx.offset)
  let (opcode, data) ← wrapping "failed to read metadata record" (readRecordInto rt pos)
  if opcode ≠ op.METADATA then
    Exec.fail (.text ("expected metadata record, found " ++ bytesText data.bytes))
  else
    let metadata ← Exec.lift (wrap "failed to parse metadata record" (parseMetadata data.bytes))
    match callback metadata with
    | some e => Exec.fail (.wrapped "metadata callback failed" e)
    | none => pure ()

/-- The metadata of some indexes, in order. -/
def showAll (rt : Runtime) (callback : Metadata → Option Error) :
    List MetadataIndex → Exec IndexedMessageIterator Error Unit
  | [] => pure ()
  | idx :: rest => do
      let _ ← showMetadata rt callback idx
      showAll rt callback rest

/-- The metadata is shown to the callback, if there is one. -/
def metadataCallbacks (rt : Runtime) : Exec IndexedMessageIterator Error Unit := do
  let it ← Exec.get
  match it.metadataCallback with
  | none => pure ()
  | some callback => showAll rt callback it.metadataIndexes

/-! ## Iterating -/

/-- The bytes of a message in the buffer of a slot. -/
def messageBytes (buf : Slice) (offset : Nat) : Res Error Bytes :=
  match checkedAdd offset (1 + 8) with
  | none => .err (.text ("message offset in chunk too close to uint64 max: " ++ toString offset))
  | some messageDataStart =>
      match buf.behind (offset + 1) with
      | none => .panic
      | some lengthBuf =>
          if lengthBuf.len < 8 then .panic
          else
            let length := ofLe (lengthBuf.bytes.take 8)
            match checkedAdd messageDataStart length with
            | none => .err (.text ("message record length extends past uint64 range: " ++
                toString length))
            | some messageDataEnd =>
                match buf.between messageDataStart messageDataEnd with
                | none => .panic
                | some messageData => .ok messageData

/-- The next message is yielded. -/
def yieldMessage (messageIndex : MessageIndexWithChunkSlot) :
    Exec IndexedMessageIterator Error Yield := do
  let it ← Exec.get
  match it.chunkSlots[messageIndex.chunkSlotIndex]? with
  | none => Exec.abort
  | some chunkSlot =>
      let messageData ← Exec.lift (messageBytes chunkSlot.buf messageIndex.offset)
      let msg ← Exec.lift (parseMessage messageData)
      Exec.modify fun it =>
        { it with
          chunkSlots := it.chunkSlots.modify messageIndex.chunkSlotIndex fun slot =>
            { slot with unreadMessages := slot.unreadMessages - 1 }
          curMessageIndex := it.curMessageIndex + 1 }
      match it.channels[msg.channelID]? with
      | none => Exec.fail (.text ("message with unrecognized channel ID " ++
          toString msg.channelID.toNat))
      | some channel =>
          let schema ← Exec.lift (schemaOf it.schemas channel msg.channelID)
          pure ⟨schema, channel, msg⟩

/-- A chunk is loaded, and the next one becomes the current one. -/
def loadNext (rt : Runtime) (chunkIndex : ChunkIndex) :
    Exec IndexedMessageIterator Error (Option Yield) := do
  let _ ← loadChunk rt chunkIndex
  Exec.modify fun it => { it with curChunkIndex := it.curChunkIndex + 1 }
  pure none

/-- The next chunk has to be loaded before a message is yielded. -/
def loadsBefore (order : ReadOrder) (chunkIndex : ChunkIndex) (timestamp : UInt64) : Bool :=
  match order with
  | .file => false
  | .logTime => chunkIndex.messageStartTime < timestamp
  | .reverseLogTime => timestamp < chunkIndex.messageEndTime

/-- One turn of the loop of `NextInto`: it yields a message, or goes on. -/
def step (rt : Runtime) : Exec IndexedMessageIterator Error (Option Yield) := do
  let it ← Exec.get
  match it.messageIndexes[it.curMessageIndex]?, it.chunkIndexes[it.curChunkIndex]? with
  | none, none => Exec.fail .eof
  | none, some chunkIndex => loadNext rt chunkIndex
  | some messageIndex, some chunkIndex =>
      if loadsBefore it.order chunkIndex messageIndex.timestamp then loadNext rt chunkIndex
      else do
        let y ← yieldMessage messageIndex
        pure (some y)
  | some messageIndex, none => do
      let y ← yieldMessage messageIndex
      pure (some y)

/-- The loop of `NextInto`. -/
def run (rt : Runtime) : Nat → IndexedMessageIterator →
    Option (Res Error Yield × IndexedMessageIterator)
  | 0, _ => none
  | fuel + 1, it =>
      match step rt it with
      | (.ok (some y), it) => some (.ok y, it)
      | (.ok none, it) => run rt fuel it
      | (.err e, it) => some (.err e, it)
      | (.panic, it) => some (.panic, it)

/-- The summary section is read by the first call, and the metadata. -/
def begin (rt : Runtime) (fuel : Nat) (it : IndexedMessageIterator) :
    Option (Res Error Unit × IndexedMessageIterator) :=
  if it.hasReadSummarySection then some (.ok (), it)
  else
    match parseSummarySection rt.unpackers fuel it with
    | some (.ok (), it) => some (metadataCallbacks rt it)
    | r => r

/-- `NextInto`. -/
def nextInto (rt : Runtime) (fuel : Nat) (it : IndexedMessageIterator) :
    Option (Res Error Yield × IndexedMessageIterator) :=
  match begin rt fuel it with
  | none => none
  | some (.ok (), it) => run rt fuel it
  | some (.err e, it) => some (.err e, it)
  | some (.panic, it) => some (.panic, it)

end IndexedMessageIterator

/-! ## Readers -/

/-- `Info`. -/
structure Info where
  statistics : Option Statistics
  channels : BTreeMap UInt16 Channel
  chunkIndexes : List ChunkIndex
  attachmentIndexes : List AttachmentIndex
  metadataIndexes : List MetadataIndex
  schemas : BTreeMap UInt16 Schema
  footer : Option Footer
  header : Header

/-- `CanReadMessagesUsingIndex`. -/
def Info.canReadMessagesUsingIndex (i : Info) : Bool :=
  !i.chunkIndexes.isEmpty || (i.statistics.map Statistics.messageCount) = some 0

/-- `Reader`: its lexer stands behind the header. -/
structure Reader where
  lexer : Lexer
  header : Header

namespace Reader

/-- `unindexedIterator`. -/
def unindexedIterator (r : Reader) (opts : ReadOptions) : UnindexedMessageIterator where
  lexer := { r.lexer with opts := { r.lexer.opts with emitChunks := false } }
  schemas := ∅
  channels := ∅
  topics := opts.finalize.topics
  start := opts.finalize.startNanos
  end_ := opts.finalize.endNanos
  room := 0
  metadataCallback := opts.metadataCallback

/-- `indexedMessageIterator`. -/
def indexedMessageIterator (r : Reader) (opts : ReadOptions) : IndexedMessageIterator where
  file := r.lexer.source.bytes
  topics := opts.finalize.topics
  start := opts.finalize.startNanos
  end_ := opts.finalize.endNanos
  order := opts.order
  channels := ∅
  schemas := ∅
  statistics := none
  chunkIndexes := []
  attachmentIndexes := []
  metadataIndexes := []
  footer := none
  fileSize := 0
  curChunkIndex := 0
  messageIndexes := []
  curMessageIndex := 0
  chunkSlots := []
  hasReadSummarySection := false
  recordBuf := .empty
  metadataCallback := opts.metadataCallback

/-- The options that `Info` reads with. -/
def infoOptions : ReadOptions where
  start := 0
  end_ := 0
  topics := []
  useIndex := true
  order := .file
  metadataCallback := none
  startNanos := 0
  endNanos := 0

/-- `Info`, of a reader that can seek. -/
def info (D : Unpackers) (fuel : Nat) (r : Reader) : Option (Res Error Info) :=
  match (r.indexedMessageIterator infoOptions).parseSummarySection D fuel with
  | none => none
  | some (.err e, _) => some (.err e)
  | some (.panic, _) => some .panic
  | some (.ok (), it) =>
      some (.ok
        { statistics := it.statistics
          channels := it.channels
          chunkIndexes := it.chunkIndexes
          attachmentIndexes := it.attachmentIndexes
          metadataIndexes := it.metadataIndexes
          schemas := it.schemas
          footer := it.footer
          header := r.header })

end Reader

/-- `MessageIterator`. -/
inductive MessageIterator
  | unindexed (it : UnindexedMessageIterator)
  | indexed (it : IndexedMessageIterator)

/-- `NextInto`. -/
def MessageIterator.nextInto (rt : Runtime) (fuel : Nat) :
    MessageIterator → Option (Res Error Yield × MessageIterator)
  | .unindexed it => (it.nextInto rt.unpackers fuel).map fun r => (r.1, .unindexed r.2)
  | .indexed it => (it.nextInto rt fuel).map fun r => (r.1, .indexed r.2)

/-- The options of `Messages` before any is given. -/
def ReadOptions.default : ReadOptions where
  start := 0
  end_ := 0
  topics := []
  useIndex := true
  order := .file
  metadataCallback := none
  startNanos := 0
  endNanos := .ofNat (2 ^ 64 - 1)

/-- `Messages`.  If the index cannot be used, the reader is sought back to where it was. -/
def Reader.messages (D : Unpackers) (fuel : Nat) (r : Reader) (opts : List ReadOpt) :
    Option (Res Error MessageIterator) :=
  match opts.foldlM (fun ro opt => opt ro) ReadOptions.default with
  | .error e => some (.err e)
  | .ok options =>
      let options := options.finalize
      if options.useIndex then
        if r.lexer.source.seeks then
          match r.info D fuel with
          | none => none
          | some (.panic) => some .panic
          | some (.err e) => some (.err (.wrapped "could not get info" e))
          | some (.ok info) =>
              if info.canReadMessagesUsingIndex then
                some (.ok (.indexed (r.indexedMessageIterator options)))
              else if options.order ≠ .file then
                some (.err (.text "no index available, only file-order reads are supported"))
              else some (.ok (.unindexed (r.unindexedIterator options)))
        else some (.err (.text "indexed reader requires a seekable reader"))
      else some (.ok (.unindexed (r.unindexedIterator options)))

end Go
end Mcap

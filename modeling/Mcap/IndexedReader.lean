import Mcap.Types
import Mathlib.Data.List.Sort
import Mathlib.Data.Prod.Lex

/-! # The indexed reader

`sans_io/indexed_reader.rs`: `IndexedReader` yields the messages of a file in one
of three orders, from the chunk indexes of its summary.  It asks for the chunks it
needs, keeps the decompressed ones in slots that are used again once their messages
have been yielded, and keeps one sorted array of indexes into the slots.

The one-shot decompressors of the two compression libraries are the parameter
`Codecs`.  Slice indexing, assertions and unsigned subtraction panic as they do in
the source.
-/
namespace Mcap

/-- `zstd_safe::decompress` into a buffer with room for `n` bytes, and
`lz4::Decoder` read to the end of a buffer of `n` bytes. -/
structure Codecs where
  zstd : (n : Nat) → Bytes → Except String Bytes
  lz4 : (n : Nat) → Bytes → Except IoError Bytes
  /-- `read_exact` fills the buffer. -/
  lz4_length : ∀ {n data out}, lz4 n data = .ok out → out.length = n

/-- `ReadOrder`. -/
inductive ReadOrder
  | logTime
  | reverseLogTime
  | file
deriving DecidableEq

/-- `IndexedReaderOptions`. -/
structure IndexedReaderOptions where
  start : Option UInt64 := none
  stop : Option UInt64 := none
  order : ReadOrder := .logTime
  includeTopics : Option (List String) := none
  recordLengthLimit : Option Nat := none

/-- `Filter`: `stop` is the field `end` of the source. -/
structure Filter where
  start : Option UInt64
  stop : Option UInt64
  channelIds : List UInt16
deriving DecidableEq

/-- `ChunkSlot`. -/
structure ChunkSlot where
  buf : Bytes
  dataStart : UInt64
  messageCount : Nat
deriving DecidableEq

/-- `MessageIndex` of the indexed reader: where a message is in the slots. -/
structure SlotIndex where
  chunkSlotIdx : Nat
  logTime : UInt64
  offset : Nat
deriving DecidableEq

/-- `IndexedReadEvent`. -/
inductive IndexedReadEvent
  | readChunkRequest (offset : UInt64) (length : Nat)
  | message (header : MessageHeader) (data : Bytes)
deriving DecidableEq

/-- `IndexedReader`. -/
structure IndexedReader where
  chunkIndexes : List ChunkIndex
  curChunkIndex : Nat
  chunkSlots : List ChunkSlot
  messageIndexes : List SlotIndex
  curMessageIndex : Nat
  order : ReadOrder
  filter : Filter
  recordLengthLimit : Option Nat

/-- `ChunkIndex::compressed_data_offset`: the offset of the chunk, plus the opcode,
the record length and the fields of the chunk header. -/
def ChunkIndex.compressedDataOffset (index : ChunkIndex) : Except McapError UInt64 :=
  let n := index.chunkStartOffset.toNat + (49 + (utf8 index.compression).length)
  if n < 2 ^ 64 then .ok (UInt64.ofNat n)
  else .error (.badChunkStartOffset index.chunkStartOffset.toNat)

/-- `sort_by_key`: a stable sort. -/
def sortByKey {α κ : Type} [LE κ] [DecidableLE κ] (key : α → κ) (l : List α) : List α :=
  l.insertionSort fun a b => key a ≤ key b

/-- `sort_by_key` with `Reverse`. -/
def sortByKeyReverse {α κ : Type} [LE κ] [DecidableLE κ] (key : α → κ) (l : List α) : List α :=
  l.insertionSort fun a b => key b ≤ key a

namespace IndexedReader

/-! ## Construction -/

/-- The ids of the channels whose topic is included; empty means all. -/
def channelIds (summary : Summary) (options : IndexedReaderOptions) : List UInt16 :=
  match options.includeTopics with
  | some includeTopics =>
      (summary.channels.toList.filter fun c => includeTopics.contains c.2.topic).map Prod.fst
  | none => []

/-- Whether a chunk may hold messages that pass the filter. -/
def usesChunk (filter : Filter) (chunkIndex : ChunkIndex) : Bool :=
  if filter.start.any (fun start => chunkIndex.messageEndTime < start) then false
  else if filter.stop.any (fun stop => chunkIndex.messageStartTime ≥ stop) then false
  else if filter.channelIds.isEmpty then true
  else if chunkIndex.messageIndexOffsets.isEmpty then true
  else chunkIndex.messageIndexOffsets.keys.any fun key => filter.channelIds.contains key

/-- The order in which the chunks are read. -/
def sortChunks (order : ReadOrder) (chunkIndexes : List ChunkIndex) : List ChunkIndex :=
  match order with
  | .file => sortByKey (fun c => c.chunkStartOffset.toNat) chunkIndexes
  | .logTime =>
      sortByKey (fun c => toLex (c.messageStartTime.toNat, c.chunkStartOffset.toNat)) chunkIndexes
  | .reverseLogTime =>
      sortByKeyReverse (fun c => toLex (c.messageEndTime.toNat, c.chunkStartOffset.toNat))
        chunkIndexes

/-- The checks of one chunk index: its sizes are within the limit. -/
def checkSizes (limit : Option Nat) (c : ChunkIndex) : Except McapError Unit :=
  if (checkLen c.compressedSize.toNat limit).isNone then
    .error (.chunkTooLarge c.compressedSize.toNat)
  else if (checkLen c.uncompressedSize.toNat limit).isNone then
    .error (.chunkTooLarge c.compressedSize.toNat)
  else .ok ()

/-- `IndexedReader::new_with_options`. -/
def newWithOptions (summary : Summary) (options : IndexedReaderOptions) :
    Except McapError IndexedReader := do
  let filter : Filter :=
    { start := options.start, stop := options.stop, channelIds := channelIds summary options }
  let chunkIndexes := summary.chunkIndexes.filter (usesChunk filter)
  chunkIndexes.forM fun c => discard c.compressedDataOffset
  let chunkIndexes := sortChunks options.order chunkIndexes
  chunkIndexes.forM (checkSizes options.recordLengthLimit)
  return {
    chunkIndexes
    curChunkIndex := 0
    chunkSlots := []
    messageIndexes := []
    curMessageIndex := 0
    order := options.order
    filter
    recordLengthLimit := options.recordLengthLimit }

/-! ## Events -/

/-- `chunk_request`. -/
def chunkRequest (index : ChunkIndex) (limit : Option Nat) :
    Res McapError (Option IndexedReadEvent) :=
  match checkLen index.compressedSize.toNat limit with
  | none => .err (.chunkTooLarge index.compressedSize.toNat)
  | some length =>
      match index.compressedDataOffset with
      | .ok offset => .ok (some (.readChunkRequest offset length))
      | .error _ => .panic

/-- `yield_chunk_first`: whether the chunk should be loaded before the message is
yielded. -/
def yieldChunkFirst (r : IndexedReader) (chunkIndex : ChunkIndex) (messageIndex : SlotIndex) :
    Res McapError Bool :=
  match r.order with
  | .file =>
      match r.chunkSlots[messageIndex.chunkSlotIdx]?, chunkIndex.compressedDataOffset with
      | some slot, .ok dataOffset => .ok (decide (dataOffset < slot.dataStart))
      | _, _ => .panic
  | .logTime => .ok (decide (chunkIndex.messageStartTime < messageIndex.logTime))
  | .reverseLogTime => .ok (decide (chunkIndex.messageEndTime > messageIndex.logTime))

/-- The record at the front of a buffer: its opcode, its length and the bytes after
them. -/
def splitRecord (buf : Bytes) : Except McapError (UInt8 × Nat × Bytes) :=
  match buf with
  | [] => .error .unexpectedEoc
  | opcode :: buf =>
      if buf.length < 8 then .error .unexpectedEoc
      else .ok (opcode, ofLe (buf.take 8), buf.drop 8)

/-- The message at `offset` of a slot. -/
def readMessage (limit : Option Nat) (slot : ChunkSlot) (offset : Nat) :
    Res McapError (MessageHeader × Bytes) :=
  if offset > slot.buf.length then .panic
  else
    match slot.buf.drop offset with
    | [] => .err .unexpectedEoc
    | opcode :: _ =>
        if opcode ≠ op.MESSAGE then .panic
        else
          match splitRecord (slot.buf.drop offset) with
          | .error e => .err e
          | .ok (_, len, buf) =>
              match checkLen len limit with
              | none => .err (.recordTooLarge opcode len)
              | some len =>
                  if buf.length < len then .err .unexpectedEoc
                  else
                    match readLeFrom MessageHeader.read (buf.take len) with
                    | .error e => .err e
                    | .ok (header, reader) => .ok (header, reader.rest)

/-- The message that `message_indexes[cur_message_index]` points to is yielded. -/
def yieldMessage (messageIndex : SlotIndex) : Exec IndexedReader McapError (Option IndexedReadEvent) :=
  fun r =>
    match r.chunkSlots[messageIndex.chunkSlotIdx]? with
    | none => (.panic, r)
    | some slot =>
        match readMessage r.recordLengthLimit slot messageIndex.offset with
        | .err e => (.err e, r)
        | .panic => (.panic, r)
        | .ok (header, data) =>
            if slot.messageCount = 0 then (.panic, { r with curMessageIndex := r.curMessageIndex + 1 })
            else
              (.ok (some (.message header data)),
                { r with
                  curMessageIndex := r.curMessageIndex + 1
                  chunkSlots := r.chunkSlots.set messageIndex.chunkSlotIdx
                    { slot with messageCount := slot.messageCount - 1 } })

/-- `IndexedReader::next_event`. -/
def nextEvent : Exec IndexedReader McapError (Option IndexedReadEvent) := fun r =>
  match r.messageIndexes[r.curMessageIndex]? with
  | some messageIndex =>
      match r.chunkIndexes[r.curChunkIndex]? with
      | some chunkIndex =>
          match r.yieldChunkFirst chunkIndex messageIndex with
          | .ok true => (chunkRequest chunkIndex r.recordLengthLimit, r)
          | .ok false => yieldMessage messageIndex r
          | .err e => (.err e, r)
          | .panic => (.panic, r)
      | none => yieldMessage messageIndex r
  | none =>
      match r.chunkIndexes[r.curChunkIndex]? with
      | some chunkIndex => (chunkRequest chunkIndex r.recordLengthLimit, r)
      | none => (.ok none, r)

/-! ## Insertion -/

/-- `find_or_make_chunk_slot`: the index of the first slot without messages, which is
cleared, or of a new one. -/
def findOrMakeChunkSlot (dataStart : UInt64) : List ChunkSlot → Nat × List ChunkSlot
  | [] => (0, [{ buf := [], dataStart, messageCount := 0 }])
  | slot :: slots =>
      if slot.messageCount = 0 then (0, { slot with dataStart, buf := [] } :: slots)
      else
        let (i, slots) := findOrMakeChunkSlot dataStart slots
        (i + 1, slot :: slots)

/-- Whether a message passes the filter. -/
def Filter.accepts (filter : Filter) (msg : MessageHeader) : Bool :=
  if filter.stop.any (fun stop => msg.logTime ≥ stop) then false
  else if filter.start.any (fun start => msg.logTime < start) then false
  else filter.channelIds.isEmpty || filter.channelIds.contains msg.channelId

/-- The variables of the loop of `index_messages`. -/
structure Scan where
  sortingRequired : Bool
  latestTimestamp : UInt64
  messageIndexes : List SlotIndex

/-- The loop of `index_messages`: `buf` is the chunk from `offset` on. -/
def scan (slotIdx : Nat) (order : ReadOrder) (filter : Filter) (limit : Option Nat) :
    Nat → Nat → Bytes → Scan → Except McapError Unit × Scan
  | 0, _, _, s => (.ok (), s)
  | fuel + 1, offset, buf, s =>
      if buf = [] then (.ok (), s)
      else
        match splitRecord buf with
        | .error e => (.error e, s)
        | .ok (opcode, len, buf) =>
            match checkLen len limit with
            | none => (.error (.recordTooLarge opcode len), s)
            | some len =>
                if buf.length < len then (.error .unexpectedEoc, s)
                else if opcode ≠ op.MESSAGE then
                  scan slotIdx order filter limit fuel (offset + 9 + len) (buf.drop len) s
                else
                  match readLeFrom MessageHeader.read (buf.take len) with
                  | .error e => (.error e, s)
                  | .ok (msg, _) =>
                      if Filter.accepts filter msg then
                        scan slotIdx order filter limit fuel (offset + 9 + len) (buf.drop len)
                          { sortingRequired :=
                              if !s.sortingRequired && order ≠ .file then
                                decide (msg.logTime < s.latestTimestamp)
                              else s.sortingRequired
                            latestTimestamp := max s.latestTimestamp msg.logTime
                            messageIndexes := s.messageIndexes ++
                              [{ chunkSlotIdx := slotIdx, logTime := msg.logTime, offset }] }
                      else
                        scan slotIdx order filter limit fuel (offset + 9 + len) (buf.drop len) s

/-- The `data_start` of the slot of an index. -/
def dataStart (slots : List ChunkSlot) (index : SlotIndex) : Nat :=
  match slots[index.chunkSlotIdx]? with
  | some slot => slot.dataStart.toNat
  | none => 0

/-- The sort of the unread indexes. -/
def sortUnread (order : ReadOrder) (slots : List ChunkSlot) (unread : List SlotIndex) :
    List SlotIndex :=
  match order with
  | .file => sortByKey (fun i => toLex (dataStart slots i, i.offset)) unread
  | .logTime =>
      sortByKey (fun i => toLex (i.logTime.toNat, toLex (dataStart slots i, i.offset))) unread
  | .reverseLogTime =>
      sortByKeyReverse (fun i => toLex (i.logTime.toNat, toLex (dataStart slots i, i.offset)))
        unread

/-- In reverse order the new indexes, those from `start` on, are reversed first. -/
def reverseNew (order : ReadOrder) (start : Nat) (indexes : List SlotIndex) : List SlotIndex :=
  match order with
  | .reverseLogTime => indexes.take start ++ (indexes.drop start).reverse
  | _ => indexes

/-- `index_messages`: the number of messages indexed, and the array of indexes. -/
def indexMessages (slotIdx : Nat) (slots : List ChunkSlot) (chunkData : Bytes) (order : ReadOrder)
    (filter : Filter) (messageIndexes : List SlotIndex) (cur : Nat) (limit : Option Nat) :
    Except McapError Nat × List SlotIndex :=
  let s₀ : Scan :=
    { sortingRequired := !messageIndexes.isEmpty, latestTimestamp := 0, messageIndexes }
  match scan slotIdx order filter limit chunkData.length 0 chunkData s₀ with
  | (.error e, s) => (.error e, s.messageIndexes)
  | (.ok (), s) =>
      let indexes := reverseNew order messageIndexes.length s.messageIndexes
      let indexes :=
        if s.sortingRequired then indexes.take cur ++ sortUnread order slots (indexes.drop cur)
        else indexes
      (.ok (indexes.length - messageIndexes.length), indexes)

/-- Decompress the data of a chunk, as its index says. -/
def decode (C : Codecs) (compression : String) (uncompressedSize : Nat) (data : Bytes) :
    Res McapError Bytes :=
  if compression = "" then
    -- `copy_from_slice` into a buffer of the uncompressed size
    if data.length = uncompressedSize then .ok data else .panic
  else if compression = "zstd" then
    match C.zstd uncompressedSize data with
    | .error e => .err (.decompressionError e)
    | .ok out =>
        if out.length ≠ uncompressedSize then
          .err (.decompressionError
            s!"zstd decompression error: expected {uncompressedSize}, got {out.length}")
        else .ok out
  else if compression = "lz4" then
    match C.lz4 uncompressedSize data with
    | .error e => .err (.io e)
    | .ok out => .ok out
  else .err (.unsupportedCompression compression)

/-- The chunk in slot `slotIdx` is indexed, and the chunk index `i` places after the
current one is removed. -/
def indexChunk (i slotIdx : Nat) (chunkData : Bytes) (r : IndexedReader) :
    Res McapError Unit × IndexedReader :=
  let exhausted := r.curMessageIndex ≥ r.messageIndexes.length
  let cur := if exhausted then 0 else r.curMessageIndex
  let messageIndexes := if exhausted then [] else r.messageIndexes
  match indexMessages slotIdx r.chunkSlots chunkData r.order r.filter messageIndexes cur
    r.recordLengthLimit with
  | (.error e, messageIndexes) => (.err e, { r with curMessageIndex := cur, messageIndexes })
  | (.ok messageCount, messageIndexes) =>
      let compact := messageCount < cur
      (.ok (),
        { r with
          chunkSlots := r.chunkSlots.modify slotIdx fun slot => { slot with messageCount }
          messageIndexes := if compact then messageIndexes.drop cur else messageIndexes
          curMessageIndex := if compact then 0 else cur
          curChunkIndex := if i = 0 then r.curChunkIndex + 1 else r.curChunkIndex
          chunkIndexes :=
            if i = 0 then r.chunkIndexes else r.chunkIndexes.eraseIdx (r.curChunkIndex + i) })

/-- The linear search for the chunk whose compressed data is at `offset`. -/
def findChunk (offset : UInt64) : List ChunkIndex → Res McapError (Option (Nat × ChunkIndex))
  | [] => .ok none
  | chunkIndex :: rest =>
      match chunkIndex.compressedDataOffset with
      | .error _ => .panic
      | .ok chunkStartOffset =>
          if chunkStartOffset = offset then .ok (some (0, chunkIndex))
          else
            match findChunk offset rest with
            | .ok (some (i, c)) => .ok (some (i + 1, c))
            | .ok none => .ok none
            | .err e => .err e
            | .panic => .panic

/-- `IndexedReader::insert_chunk_record_data`.  A decompressor that fails leaves the
buffer of a slot without messages in an unknown state; it is left empty here. -/
def insertChunkRecordData (C : Codecs) (offset : UInt64) (compressedData : Bytes) :
    Exec IndexedReader McapError Unit := fun r =>
  match findChunk offset (r.chunkIndexes.drop r.curChunkIndex) with
  | .panic => (.panic, r)
  | .err e => (.err e, r)
  | .ok none => (.err .unexpectedChunkDataInserted, r)
  | .ok (some (i, chunkIndex)) =>
      if compressedData.length ≠ chunkIndex.compressedSize.toNat then
        (.err .unexpectedChunkDataInserted, r)
      else
        let (slotIdx, chunkSlots) := findOrMakeChunkSlot offset r.chunkSlots
        match decode C chunkIndex.compression chunkIndex.uncompressedSize.toNat compressedData with
        | .panic => (.panic, { r with chunkSlots })
        | .err e => (.err e, { r with chunkSlots })
        | .ok buf =>
            indexChunk i slotIdx buf
              { r with chunkSlots := chunkSlots.modify slotIdx fun slot => { slot with buf } }

end IndexedReader
end Mcap

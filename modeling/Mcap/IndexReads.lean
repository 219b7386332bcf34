import Mcap.ChunkReading
import Mcap.SliceReads

/-! # Reads by the indexes of a summary

`Summary::stream_chunk`, `Summary::read_message_indexes` and `Summary::seek_message` of `read.rs` take
the offsets and the lengths of a `ChunkIndex` as they are in the file, and slice the file with them.
Sums are checked as a debug build does, and a slice that is out of range panics.

What they read is read by a `LinearReader` or a `ChunkReader`, whose loops run on fuel.
-/
namespace Mcap

/-! ## The chunk of an index -/

/-- The body of the record that a chunk index names, if the file has it. -/
def chunkSlice (mcap : Bytes) (index : ChunkIndex) : Res McapError Bytes :=
  (checkedAdd index.chunkStartOffset.toNat index.chunkLength.toNat).bind fun stop =>
    if mcap.length < stop then .err .badIndex
    else
      -- opcode and record length
      (checkedAdd index.chunkStartOffset.toNat 9).bind fun start => sliceOf mcap start stop

/-- The chunk that an index names, as its header and its data. -/
def indexedChunk (mcap : Bytes) (index : ChunkIndex) : Res McapError (ChunkHeader × Bytes) :=
  (chunkSlice mcap index).bind fun body =>
    match parseRecord op.CHUNK body with
    | .ok (.chunk header data) => .ok (header, data)
    | .ok _ => .err .badIndex
    | .err e => .err e
    | .panic => .panic

section
variable {δ : Type} (D : Decompressor δ)

/-- `Summary::stream_chunk`, but for the iterator over the messages of the reader. -/
def streamChunk (mcap : Bytes) (index : ChunkIndex) : Res McapError (InnerReader δ) :=
  (indexedChunk mcap index).bind fun (header, data) =>
    match chunkReader D header data with
    | .ok reader => .ok reader
    | .error e => .err e

/-- The message of a record, with its channel from the summary. -/
def Summary.message (summary : Summary) (header : MessageHeader) (data : Bytes) :
    Except McapError Message :=
  match summary.channels[header.channelId]? with
  | some channel =>
      .ok
        { channel
          sequence := header.sequence
          logTime := header.logTime
          publishTime := header.publishTime
          data }
  | none => .error (.unknownChannel header.sequence header.channelId)

/-! ## Message indexes -/

/-- The fewest bytes of a message index: opcode, record length, channel and length of the array. -/
def MIN_MESSAGE_INDEX_BYTES : Nat := 1 + 8 + 2 + 4

/-- The first item of a reader is to be the message index of a channel. -/
def indexOfItem {S : Type} (channelId : UInt16) :
    Next S (Except McapError Record) → Progress (Except McapError MessageIndex)
  | .item (.ok (.messageIndex index)) _ =>
      .done (if channelId = index.channelId then .ok index else .error .badIndex)
  | .item (.ok _) _ => .done (.error .badIndex)
  | .item (.error e) _ => .done (.error e)
  | .ended _ => .done (.error .badIndex)
  | .panic => .panic
  | .spin => .spin

/-- The message index at an offset, for a channel. -/
def readMessageIndex (fuel : Nat) (mcap : Bytes) (channelId : UInt16) (offset : UInt64) :
    Progress (Except McapError MessageIndex) :=
  if 2 ^ 64 ≤ offset.toNat + MIN_MESSAGE_INDEX_BYTES then .panic
  else if mcap.length < offset.toNat + MIN_MESSAGE_INDEX_BYTES then .done (.error .badIndex)
  else indexOfItem channelId ((sansMagic (mcap.drop offset.toNat)).next D fuel)

/-- The message indexes of a chunk: for each channel its entries. -/
abbrev ChunkMessages := List (Channel × List MessageIndexEntry)

/-- The channel of a message index is added, unless there is one that is equal to it. -/
def addIndex (summary : Summary) (indexes : ChunkMessages) (index : MessageIndex) :
    Except McapError ChunkMessages :=
  match summary.channels[index.channelId]? with
  | none => .error (.unknownChannel 0 index.channelId)
  | some channel =>
      if channel ∈ indexes.map Prod.fst then .error (.conflictingChannels channel.topic)
      else .ok (indexes ++ [(channel, index.records)])

/-- The loop of `Summary::read_message_indexes`. -/
def collectIndexes (fuel : Nat) (summary : Summary) (mcap : Bytes) :
    List (UInt16 × UInt64) → ChunkMessages → Progress (Except McapError ChunkMessages)
  | [], indexes => .done (.ok indexes)
  | (channelId, offset) :: rest, indexes =>
      (readMessageIndex D fuel mcap channelId offset).bind fun
        | .error e => .done (.error e)
        | .ok index =>
            match addIndex summary indexes index with
            | .error e => .done (.error e)
            | .ok indexes => collectIndexes fuel summary mcap rest indexes

/-- `Summary::read_message_indexes`. -/
def readMessageIndexes (fuel : Nat) (summary : Summary) (mcap : Bytes) (index : ChunkIndex) :
    Progress (Except McapError ChunkMessages) :=
  if index.messageIndexOffsets.isEmpty then .done (.error .badIndex)
  else collectIndexes D fuel summary mcap index.messageIndexOffsets.toList []

/-! ## One message of a chunk -/

/-- The record at the offset that `Summary::seek_message` looks for. -/
def soughtMessage (summary : Summary) (opcode : UInt8) (data : Bytes) :
    Progress (Except McapError Message) :=
  match parseRecord opcode data with
  | .ok (.message header data) => .done (summary.message header data)
  | .ok _ => .done (.error .badIndex)
  | .err e => .done (.error e)
  | .panic => .panic

/-- The loop of `Summary::seek_message`: the next record is at `uncompressedOffset`. -/
def seekLoop (summary : Summary) (target : Nat) :
    Nat → InnerReader δ → Nat → Progress (Except McapError Message)
  | 0, _, _ => .spin
  | fuel + 1, reader, uncompressedOffset =>
      match reader.nextRaw D (fuel + 1) with
      | .item (.ok (opcode, data)) reader =>
          if uncompressedOffset < target then
            if 2 ^ 64 ≤ uncompressedOffset + (9 + data.length) then .panic
            else seekLoop summary target fuel reader (uncompressedOffset + (9 + data.length))
          else if uncompressedOffset ≠ target then .done (.error .badIndex)
          else soughtMessage summary opcode data
      | .item (.error e) _ => .done (.error e)
      | .ended _ => .done (.error .badIndex)
      | .panic => .panic
      | .spin => .spin

/-- `Summary::seek_message`. -/
def seekMessage (fuel : Nat) (summary : Summary) (mcap : Bytes) (index : ChunkIndex)
    (message : MessageIndexEntry) : Progress (Except McapError Message) :=
  match indexedChunk mcap index with
  | .ok (header, data) =>
      match chunkReader D header data with
      | .ok reader => seekLoop D summary message.offset.toNat fuel reader 0
      | .error e => .done (.error e)
  | .err e => .done (.error e)
  | .panic => .panic

end
end Mcap

import Mcap.IndexedReader
import Mcap.Layout
import Mcap.LazyMerge

/-! # Indexed files, and what an indexed reader is for

`IndexedFile` is a file all of whose messages lie in chunks, with a summary that
indexes every chunk correctly.  `selected` are the messages a caller asked for, in
file order.

`IndexedReader.Delivers` is the specification of a run: whoever drives the reader
answers each request with the data of a chunk, every run ends with `None`, and what
it yielded satisfies a predicate.  Messages are named by where they are, so that a
message yielded twice or in another's place shows.

`merge` is the abstract reader, a lazy merge of the chunks; the three read orders
differ in the time and the key of a message only.
-/
namespace Mcap

/-! ## Files -/

/-- `i` indexes the chunk `p` correctly: it says where the chunk is and how large,
its time range covers the messages, and its message index offsets, if there are any,
name their channels. -/
structure Placed.IndexedBy (C : Codecs) (p : Placed) (i : ChunkIndex) : Prop where
  start : i.chunkStartOffset.toNat = p.start
  length : i.chunkLength.toNat = p.bytes.length
  compression : i.compression = p.header.compression
  compressedSize : i.compressedSize.toNat = p.compressed.length
  uncompressedSize : i.uncompressedSize.toNat = (frames p.records).length
  decoded : IndexedReader.decode C i.compression (frames p.records).length p.compressed =
    .ok (frames p.records)
  /-- Every message record has a header. -/
  messages : ∀ record ∈ p.records, record.1 = op.MESSAGE → 22 ≤ record.2.length
  times : ∀ l ∈ p.messages,
    i.messageStartTime ≤ l.header.logTime ∧ l.header.logTime ≤ i.messageEndTime
  offsets : i.messageIndexOffsets.isEmpty = true ∨
    ∀ l ∈ p.messages, l.header.channelId ∈ i.messageIndexOffsets.keys

/-- **An indexed file.**  Its data section is a row of items with no message outside
the chunks, and the chunk indexes of its summary index the chunks one to one. -/
structure IndexedFile (C : Codecs) (file : Bytes) (summary : Summary) where
  items : List Item
  rest : Bytes
  file_eq : file = MAGIC ++ items.flatMap Item.bytes ++ rest
  loose : ∀ opcode body, Item.record opcode body ∈ items → opcode ≠ op.MESSAGE ∧ opcode ≠ op.CHUNK
  length_lt : file.length < 2 ^ 64
  /-- The chunks in file order, each with its index. -/
  chunks : List (Placed × ChunkIndex)
  placed : chunks.map Prod.fst = placedFrom MAGIC.length items
  indexed : ∀ c ∈ chunks, c.1.IndexedBy C c.2
  summary_perm : summary.chunkIndexes.Perm (chunks.map Prod.snd)

/-- What a caller asked for: `start <= log_time < end`, on a channel of an included
topic. -/
def selects (summary : Summary) (options : IndexedReaderOptions) (header : MessageHeader) : Bool :=
  options.start.all (fun start => start ≤ header.logTime) &&
    options.stop.all (fun stop => header.logTime < stop) &&
    options.includeTopics.all fun topics =>
      (summary.channels[header.channelId]?).any fun channel => topics.contains channel.topic

namespace IndexedFile
variable {C : Codecs} {file : Bytes} {summary : Summary}

/-- The messages of a file, in file order. -/
def messages (F : IndexedFile C file summary) : List Located := F.chunks.flatMap (·.1.messages)

/-- The messages a caller asked for, in file order. -/
def selected (F : IndexedFile C file summary) (options : IndexedReaderOptions) : List Located :=
  F.messages.filter fun l => selects summary options l.header

end IndexedFile

/-! ## Runs -/

namespace IndexedReader

/-- The chunks that have not been inserted. -/
def uninserted (r : IndexedReader) : List ChunkIndex := r.chunkIndexes.drop r.curChunkIndex

/-- Where the next message is: the `data_start` of its slot, and its offset. -/
def position (r : IndexedReader) : Option (Nat × Nat) := do
  let index ← r.messageIndexes[r.curMessageIndex]?
  let slot ← r.chunkSlots[index.chunkSlotIdx]?
  return (slot.dataStart.toNat, index.offset)

/-- How a driver may answer a request: the offset and the length of what it reads
from the file and inserts, given the request and the chunks not inserted. -/
def Answers := UInt64 × Nat → List ChunkIndex → UInt64 × Nat → Prop

/-- The data of any chunk that has not been inserted. -/
def anyChunk : Answers := fun _ waiting answer =>
  ∃ c ∈ waiting, c.compressedDataOffset = .ok answer.1 ∧ answer.2 = c.compressedSize.toNat

/-- The data that was asked for. -/
def requested : Answers := fun request _ answer => answer = request

/-- The answer of a driver is inserted. -/
def insertAnswer (C : Codecs) (file : Bytes) (answer : UInt64 × Nat) :
    Exec IndexedReader McapError Unit :=
  insertChunkRecordData C answer.1 ((file.drop answer.1.toNat).take answer.2)

/-- **Every run ends with `None`**, without an error or a panic, and the messages it
yielded satisfy `P`. -/
inductive Delivers (C : Codecs) (file : Bytes) (answers : Answers) :
    IndexedReader → (List Located → Prop) → Prop
  | message {r r' dataStart offset header data P} : r.position = some (dataStart, offset) →
      r.nextEvent = (.ok (some (.message header data)), r') →
      Delivers C file answers r' (fun out => P (⟨dataStart, offset, header, data⟩ :: out)) →
      Delivers C file answers r P
  | request {r r' offset length P} :
      r.nextEvent = (.ok (some (.readChunkRequest offset length)), r') →
      (∀ answer, answers (offset, length) r'.uninserted answer →
        ∃ r'', r'.insertAnswer C file answer = (.ok (), r'')) →
      (∀ answer r'', answers (offset, length) r'.uninserted answer →
        r'.insertAnswer C file answer = (.ok (), r'') → Delivers C file answers r'' P) →
      Delivers C file answers r P
  | done {r r' P} : r.nextEvent = (.ok none, r') → P [] → Delivers C file answers r P

end IndexedReader

/-! ## The abstract reader -/

/-- The keys by which messages are ordered. -/
abbrev Key := ℤ ×ₗ ℤ ×ₗ ℤ

/-- The time by which an order merges the chunks.  In file order it is the position
of the chunk. -/
def Located.time (order : ReadOrder) (l : Located) : ℤ :=
  match order with
  | .logTime => l.header.logTime.toNat
  | .reverseLogTime => -l.header.logTime.toNat
  | .file => l.dataStart

/-- The key by which an order sorts messages. -/
def Located.key (order : ReadOrder) (l : Located) : Key :=
  match order with
  | .logTime => toLex (l.header.logTime.toNat, toLex (l.dataStart, l.offset))
  | .reverseLogTime =>
      toLex (-l.header.logTime.toNat, toLex (-l.dataStart, -l.offset))
  | .file => toLex (l.dataStart, toLex (l.offset, 0))

/-- The bound of a chunk. -/
def chunkBound (order : ReadOrder) (c : Placed × ChunkIndex) : ℤ :=
  match order with
  | .logTime => c.2.messageStartTime.toNat
  | .reverseLogTime => -c.2.messageEndTime.toNat
  | .file => c.1.dataStart

/-- The merge of the chunks of a file, with the messages that pass a filter. -/
def merge (order : ReadOrder) (accepts : MessageHeader → Bool) :
    Merge (Placed × ChunkIndex) Located ℤ Key where
  lo := chunkBound order
  entries c := c.1.messages.filter fun l => accepts l.header
  time := Located.time order
  key := Located.key order

theorem time_le_of_key_le {order : ReadOrder} {a b : Located} (h : a.key order ≤ b.key order) :
    a.time order ≤ b.time order := by
  cases order <;>
    · rcases Prod.Lex.le_iff.mp h with h | h
      · exact le_of_lt h
      · exact le_of_eq h.1

end Mcap

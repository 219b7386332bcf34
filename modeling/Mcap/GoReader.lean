import Mcap.GoLexer

/-! # Reading messages with the Go library

What both message iterators use: slices with spare capacity and `ParseChunk`, the read options of
`reader_options.go`, and the unindexed iterator of `unindexed_message_iterator.go`.

A slice expression `s[:n]` may reach into the spare capacity of `s`, so that it is out of range only
past the capacity; an index or `s[n:]` is out of range past the length.  The bodies that the other
parsers walk over are byte strings, since they never reach past the length.

`NextInto` calls `Lexer.Next`, which need not return, and so has fuel.
-/
namespace Mcap

/-- A result as a method that leaves the state alone. -/
def Exec.lift {σ ε α : Type} (x : Res ε α) : Exec σ ε α := fun s => (x, s)

theorem Exec.lift_ok_bind {σ ε α β : Type} (a : α) (f : α → Exec σ ε β) (s : σ) :
    (Exec.lift (.ok a) >>= f) s = f a s := rfl

namespace Go

/-- `fmt.Errorf("<context>: %w", err)` where a method fails. -/
def wrapping {σ α : Type} (context : String) (x : Exec σ Error α) : Exec σ Error α := fun s =>
  (wrap context (x s).1, (x s).2)

/-! ## Slices -/

/-- A slice of bytes: its array, from the first of its bytes on, and how many of them it has. -/
structure Slice where
  array : Bytes
  len : Nat
  le : len ≤ array.length
deriving DecidableEq

namespace Slice

/-- The bytes of a slice. -/
def bytes (s : Slice) : Bytes := s.array.take s.len

/-- `cap`. -/
def cap (s : Slice) : Nat := s.array.length

/-- A slice without spare capacity. -/
def of (bytes : Bytes) : Slice := ⟨bytes, bytes.length, Nat.le_refl _⟩

/-- `nil`. -/
def empty : Slice := of []

/-- `make([]byte, len, cap)`, of lengths that were checked. -/
def make (len cap : Nat) : Slice where
  array := List.replicate (max len cap) 0
  len := len
  le := by
    rw [List.length_replicate]
    exact Nat.le_max_left _ _

/-- `s[:n]`. -/
def upTo (s : Slice) (n : Nat) : Option Slice :=
  if h : n ≤ s.cap then some ⟨s.array, n, h⟩ else none

/-- `s[n:]`. -/
def behind (s : Slice) (n : Nat) : Option Slice :=
  if h : n ≤ s.len then
    some
      { array := s.array.drop n
        len := s.len - n
        le := by
          have hle := s.le
          rw [List.length_drop]
          omega }
  else none

/-- The bytes of `s[low:high]`. -/
def between (s : Slice) (low high : Nat) : Option Bytes :=
  if low ≤ high ∧ high ≤ s.cap then some ((s.array.drop low).take (high - low)) else none

/-- Bytes are put at the start of the array, as many as there is room for. -/
def fill (s : Slice) (bytes : Bytes) : Slice where
  array := bytes.take s.cap ++ s.array.drop bytes.length
  len := s.len
  le := by
    have hle := s.le
    rw [List.length_append, List.length_take, List.length_drop]
    unfold cap
    omega

/-- `copy(s, bytes)`. -/
def copy (s : Slice) (bytes : Bytes) : Slice := s.fill (bytes.take s.len)

end Slice

/-- `ParseChunk`.  The records may reach into the spare capacity of the buffer. -/
def parseChunk (buf : Slice) : Res Error Chunk := do
  let (messageStartTime, offset) ← wrap "failed to read start time" (getUint64 buf.bytes 0)
  let (messageEndTime, offset) ← wrap "failed to read end time" (getUint64 buf.bytes offset)
  let (uncompressedSize, offset) ← wrap "failed to read uncompressed size"
    (getUint64 buf.bytes offset)
  let (uncompressedCRC, offset) ← wrap "failed to read uncompressed CRC"
    (getUint32 buf.bytes offset)
  let (compression, offset) ← wrap "failed to read compression"
    (getPrefixedString buf.bytes offset)
  let (recordsLength, offset) ← wrap "failed to read compression" (getUint64 buf.bytes offset)
  let high := offset + int64 recordsLength.toNat
  -- a negative bound is out of range as well
  match if 0 ≤ high then buf.between offset high.toNat else none with
  | none => .panic
  | some records =>
      .ok { messageStartTime, messageEndTime, uncompressedSize := uncompressedSize.toNat,
            uncompressedCRC, compression, records }

/-! ## Options -/

/-- `ReadOrder`. -/
inductive ReadOrder
  | file
  | logTime
  | reverseLogTime
deriving DecidableEq

/-- `ReadOptions`.  `start` and `end_` are deprecated and of type `int64`. -/
structure ReadOptions where
  start : Int
  end_ : Int
  topics : List Bytes
  useIndex : Bool
  order : ReadOrder
  metadataCallback : Option (Metadata → Option Error)
  startNanos : UInt64
  endNanos : UInt64

namespace ReadOptions

/-- `Finalize`. -/
def finalize (ro : ReadOptions) : ReadOptions :=
  let ro := if ro.startNanos = 0 ∧ 0 < ro.start then
    { ro with startNanos := .ofNat ro.start.toNat } else ro
  if ro.endNanos = 0 ∧ 0 < ro.end_ then { ro with endNanos := .ofNat ro.end_.toNat } else ro

end ReadOptions

/-- `ReadOpt`. -/
abbrev ReadOpt := ReadOptions → Except Error ReadOptions

/-- The error of a range of times that ends before it begins. -/
def errEndBeforeStart : Error := .text "end cannot come before start"

/-- `After`. -/
def after (start : Int) : ReadOpt := fun ro =>
  if ro.end_ < start then .error errEndBeforeStart else .ok { ro with start }

/-- `Before`. -/
def before (end_ : Int) : ReadOpt := fun ro =>
  if end_ < ro.start then .error errEndBeforeStart else .ok { ro with end_ }

/-- `AfterNanos`. -/
def afterNanos (start : UInt64) : ReadOpt := fun ro =>
  if ro.endNanos < start then .error errEndBeforeStart else .ok { ro with startNanos := start }

/-- `BeforeNanos`. -/
def beforeNanos (end_ : UInt64) : ReadOpt := fun ro =>
  if end_ < ro.startNanos then .error errEndBeforeStart else .ok { ro with endNanos := end_ }

/-- `WithTopics`. -/
def withTopics (topics : List Bytes) : ReadOpt := fun ro => .ok { ro with topics }

/-- The error of an order that needs the index. -/
def errNeedsIndex : Error := .text "only file-order reads are supported when not using index"

/-- `InOrder`. -/
def inOrder (order : ReadOrder) : ReadOpt := fun ro =>
  if ro.useIndex = false ∧ order ≠ .file then .error errNeedsIndex else .ok { ro with order }

/-- `UsingIndex`. -/
def usingIndex (useIndex : Bool) : ReadOpt := fun ro =>
  if ro.order ≠ .file ∧ useIndex = false then .error errNeedsIndex else .ok { ro with useIndex }

/-- `WithMetadataCallback`. -/
def withMetadataCallback (callback : Metadata → Option Error) : ReadOpt := fun ro =>
  .ok { ro with metadataCallback := some callback }

/-! ## The unindexed iterator -/

/-- What an iterator yields: a message with its channel and its schema, if it has one. -/
structure Yield where
  schema : Option Schema
  channel : Channel
  message : Message
deriving DecidableEq

/-- A channel is selected by its topic; without topics every channel is. -/
def selects (topics : List Bytes) (channel : Channel) : Bool :=
  topics.isEmpty || topics.contains channel.topic

/-- `unindexedMessageIterator`.  Of the buffer for records the capacity matters. -/
structure UnindexedMessageIterator where
  lexer : Lexer
  schemas : BTreeMap UInt16 Schema
  channels : BTreeMap UInt16 Channel
  topics : List Bytes
  start : UInt64
  end_ : UInt64
  room : Nat
  metadataCallback : Option (Metadata → Option Error)

/-- The channel of a message, and its schema, unless that is missing. -/
def schemaOf (schemas : BTreeMap UInt16 Schema) (channel : Channel) (channelID : UInt16) :
    Res Error (Option Schema) :=
  let schema := schemas[channel.schemaID]?
  if schema = none ∧ channel.schemaID ≠ 0 then
    .err (.text ("channel " ++ toString channelID.toNat ++ " with unrecognized schema ID " ++
      toString channel.schemaID.toNat))
  else .ok schema

namespace UnindexedMessageIterator

/-- A message is yielded if its channel is known and its log time is in range. -/
def onMessage (msg : Message) : Exec UnindexedMessageIterator Error (Option Yield) := do
  let it ← Exec.get
  match it.channels[msg.channelID]? with
  | none => pure none
  | some channel =>
      if it.start ≤ msg.logTime ∧ msg.logTime < it.end_ then
        let schema ← Exec.lift (schemaOf it.schemas channel msg.channelID)
        pure (some ⟨schema, channel, msg⟩)
      else pure none

/-- What `NextInto` does with a token: it yields a message, or goes on. -/
def onToken (t : Token) : Exec UnindexedMessageIterator Error (Option Yield) := do
  match t.type with
  | .schema =>
      let schema ← Exec.lift (wrap "failed to parse schema" (parseSchema t.record))
      Exec.modify fun it => { it with schemas := it.schemas.insert schema.id schema }
      pure none
  | .channel =>
      let channelInfo ← Exec.lift (wrap "failed to parse channel info" (parseChannel t.record))
      Exec.modify fun it =>
        if selects it.topics channelInfo then
          { it with channels := it.channels.insert channelInfo.id channelInfo }
        else it
      pure none
  | .message =>
      let msg ← Exec.lift (parseMessage t.record)
      onMessage msg
  | .metadata =>
      let it ← Exec.get
      match it.metadataCallback with
      | none => pure none
      | some callback =>
          let metadata ← Exec.lift (wrap "failed to parse metadata" (parseMetadata t.record))
          match callback metadata with
          | some e => Exec.fail e
          | none => pure none
  | _ => pure none

end UnindexedMessageIterator

/-- `Next`, with the capacity of the record that it returns. -/
def Lexer.nextRecord (D : Unpackers) : Nat → Nat → Lexer → Option (Result × Nat × Lexer)
  | 0, _, _ => none
  | fuel + 1, capacity, l =>
      match l.turn D capacity with
      | (.token t, l) => some (.token t, max capacity t.record.length, l)
      | (.fail type e, l) => some (.fail type e, 0, l)
      | (.panic, l) => some (.panic, 0, l)
      | (.again capacity, l) => nextRecord D fuel capacity l

/-- `NextInto`; it takes at most `fuel` tokens. -/
def UnindexedMessageIterator.nextInto (D : Unpackers) :
    Nat → UnindexedMessageIterator → Option (Res Error Yield × UnindexedMessageIterator)
  | 0, _ => none
  | fuel + 1, it =>
      match it.lexer.nextRecord D (fuel + 1) it.room with
      | none => none
      | some (.panic, _, lexer) => some (.panic, { it with lexer })
      | some (.fail _ e, _, lexer) => some (.err e, { it with lexer })
      | some (.token t, capacity, lexer) =>
          match onToken t { it with lexer, room := max it.room capacity } with
          | (.ok (some y), it) => some (.ok y, it)
          | (.ok none, it) => nextInto D fuel it
          | (.err e, it) => some (.err e, it)
          | (.panic, it) => some (.panic, it)

end Go
end Mcap

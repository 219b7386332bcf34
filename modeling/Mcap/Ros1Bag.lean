import Mcap.WriterRuns

/-! # Conversion of ROS1 bags

`convert/ros1_bag.rs` of the command line tool.  A bag is a magic and records, each with a
header of fields and with data; a chunk has records in its data.  `processRecord` turns
connections into schemas and channels, and messages into messages on the channel with the id
of their connection.

The decompressors for chunks are a parameter.  `processRecords` has fuel for its loop and for
chunks in chunks.
-/
namespace Mcap

/-! ## Errors -/

/-- `anyhow::Error`: what has gone wrong, and the contexts around it. -/
inductive AnyError
  | msg (text : String)
  | io (e : IoError)
  | utf8
  | mcap (e : McapError)
  | context (text : String) (source : AnyError)
deriving DecidableEq

/-- `Context::context` on a result. -/
def withContext {α : Type} (text : String) : Except AnyError α → Except AnyError α
  | .ok a => .ok a
  | .error e => .error (.context text e)

/-- `Context::context` on an option. -/
def orMissing {α : Type} (text : String) : Option α → Except AnyError α
  | some a => .ok a
  | none => .error (.msg text)

/-- `?` where nothing panics. -/
def Res.lift {ε α : Type} : Except ε α → Res ε α
  | .ok a => .ok a
  | .error e => .err e

/-- A call on a writer and its context.  A writer whose call has failed is dropped. -/
def calling {W α : Type} (text : String) : Res McapError α × W → Res AnyError (α × W)
  | (.ok a, w) => .ok (a, w)
  | (.err e, _) => .err (.context text (.mcap e))
  | (.panic, _) => .panic

/-! ## Constants -/

/-- `BAG_MAGIC`: `#ROSBAG V2.0` and a newline. -/
def BAG_MAGIC : Bytes := [35, 82, 79, 83, 66, 65, 71, 32, 86, 50, 46, 48, 10]

def OP_BAG_CHUNK : UInt8 := 0x05
def OP_BAG_CONNECTION : UInt8 := 0x07
def OP_BAG_MESSAGE_DATA : UInt8 := 0x02

def KEY_OP : String := "op"
def KEY_COMPRESSION : String := "compression"
def KEY_SIZE : String := "size"
def KEY_CONN : String := "conn"
def KEY_TOPIC : String := "topic"
def KEY_TIME : String := "time"
def KEY_TYPE : String := "type"
def KEY_MD5SUM : String := "md5sum"
def KEY_MESSAGE_DEFINITION : String := "message_definition"

/-- `MAX_RECORD_SECTION_SIZE`: 1 GiB. -/
def MAX_RECORD_SECTION_SIZE : Nat := 2 ^ 30

/-! ## State -/

/-- `SchemaKey`. -/
structure SchemaKey where
  msgType : String
  md5sum : String
deriving DecidableEq

instance : Ord SchemaKey := ⟨compareLex (compareOn SchemaKey.msgType) (compareOn SchemaKey.md5sum)⟩

instance : Std.TransOrd SchemaKey :=
  inferInstanceAs (Std.TransCmp (compareLex (compareOn SchemaKey.msgType) (compareOn SchemaKey.md5sum)))

instance : Std.LawfulEqOrd SchemaKey where
  eq_of_compare {a b} h := by
    obtain ⟨htype, hmd5⟩ := Ordering.then_eq_eq.mp
      (show (compare a.msgType b.msgType).then (compare a.md5sum b.md5sum) = .eq from h)
    obtain ⟨msgType, md5sum⟩ := a
    obtain ⟨msgType', md5sum'⟩ := b
    obtain rfl : msgType = msgType' := Std.LawfulEqOrd.eq_of_compare htype
    obtain rfl : md5sum = md5sum' := Std.LawfulEqOrd.eq_of_compare hmd5
    rfl

/-- `ConversionState`.  A `ConnectionInfo` is its channel. -/
structure ConversionState where
  schemas : BTreeMap SchemaKey UInt16
  connections : BTreeMap UInt32 Channel
  sequence : UInt32

/-- `ConversionState::new`. -/
def ConversionState.new : ConversionState := ⟨∅, ∅, 0⟩

/-- `BagRecord`. -/
structure BagRecord where
  header : Bytes
  data : Bytes
deriving DecidableEq

/-- The fields of a header. -/
abbrev HeaderFields := BTreeMap String Bytes

/-! ## Reading records -/

/-- `read_exact`, at the front of what is left. -/
def readExactly (n : Nat) (input : Bytes) : Except AnyError (Bytes × Bytes) :=
  if input.length < n then .error (.io .unexpectedEof) else .ok (input.take n, input.drop n)

/-- `read_u32`. -/
def readBagU32 (input : Bytes) : Except AnyError (Nat × Bytes) := do
  let (bytes, input) ← readExactly 4 input
  pure (ofLe bytes, input)

/-- `read_u32_maybe_eof`. -/
def readBagU32MaybeEof (input : Bytes) : Except AnyError (Option (Nat × Bytes)) :=
  if input = [] then .ok none
  else if input.length < 4 then .error (.msg "unexpected EOF while reading u32")
  else .ok (some (ofLe (input.take 4), input.drop 4))

/-- `ensure!` on the length of a section. -/
def ensureSection (text : String) (length : Nat) : Except AnyError Unit :=
  if length ≤ MAX_RECORD_SECTION_SIZE then .ok ()
  else .error (.msg (text ++ toString length ++ " exceeds maximum " ++
    toString MAX_RECORD_SECTION_SIZE))

/-- `read_record`: the record, and what is left. -/
def readBagRecord (input : Bytes) : Except AnyError (Option (BagRecord × Bytes)) := do
  match ← withContext "failed to read record header length" (readBagU32MaybeEof input) with
  | none => pure none
  | some (headerLen, input) =>
      ensureSection "record header length " headerLen
      let (header, input) ←
        withContext "failed to read record header bytes" (readExactly headerLen input)
      let (dataLen, input) ← withContext "failed to read record data length" (readBagU32 input)
      ensureSection "record data length " dataLen
      let (data, input) ←
        withContext "failed to read record payload" (readExactly dataLen input)
      pure (some (⟨header, data⟩, input))

/-- The byte of `=`. -/
def EQUALS : UInt8 := 0x3d

/-- The loop of `parse_header_fields`: the fields of `rest`, which begins at `offset`. -/
def headerFieldsFrom : Nat → Nat → Bytes → HeaderFields → Except AnyError HeaderFields
  | 0, _, _, out => .ok out
  | fuel + 1, offset, rest, out =>
      if rest = [] then .ok out
      else if rest.length < 4 then
        .error (.msg ("invalid header field length prefix at offset " ++ toString offset))
      else
        let fieldLen := ofLe (rest.take 4)
        let rest := rest.drop 4
        if rest.length < fieldLen then .error (.msg "header field exceeds available bytes")
        else
          let field := rest.take fieldLen
          match field.idxOf? EQUALS with
          | none => .error (.msg "header field missing '=' separator")
          | some eqIdx =>
              match String.fromUTF8? ⟨(field.take eqIdx).toArray⟩ with
              | none => .error (.context "invalid utf8 header key" .utf8)
              | some key =>
                  headerFieldsFrom fuel (offset + 4 + fieldLen) (rest.drop fieldLen)
                    (out.insert key (field.drop (eqIdx + 1)))

/-- `parse_header_fields`. -/
def parseHeaderFields (buf : Bytes) : Except AnyError HeaderFields :=
  headerFieldsFrom buf.length 0 buf ∅

/-! ## Fields -/

/-- `String::from_utf8`. -/
def fromUtf8 (bytes : Bytes) : Except AnyError String :=
  match String.fromUTF8? ⟨bytes.toArray⟩ with
  | some s => .ok s
  | none => .error .utf8

/-- `header_bytes`. -/
def headerBytes (fields : HeaderFields) (key : String) : Except AnyError Bytes :=
  orMissing ("missing required header field '" ++ key ++ "'") fields[key]?

/-- `header_string`. -/
def headerString (fields : HeaderFields) (key : String) : Except AnyError String := do
  let bytes ← headerBytes fields key
  withContext ("header field '" ++ key ++ "' is not valid utf8") (fromUtf8 bytes)

/-- The number in a field of `width` bytes. -/
def headerInt (width : Nat) (expected : String) (fields : HeaderFields) (key : String) :
    Except AnyError Nat := do
  let bytes ← headerBytes fields key
  if bytes.length = width then .ok (ofLe bytes)
  else .error (.msg ("header field '" ++ key ++ "' expected " ++ expected ++ ", got " ++
    toString bytes.length))

/-- `header_u8`. -/
def headerU8 (fields : HeaderFields) (key : String) : Except AnyError UInt8 :=
  UInt8.ofNat <$> headerInt 1 "1 byte" fields key

/-- `header_u32`. -/
def headerU32 (fields : HeaderFields) (key : String) : Except AnyError UInt32 :=
  UInt32.ofNat <$> headerInt 4 "4 bytes" fields key

/-- A required field of a connection, as bytes: `take_required_bytes`, but for the removal. -/
def requiredBytes (fields : HeaderFields) (key : String) : Except AnyError Bytes :=
  orMissing ("missing required field '" ++ key ++ "'") fields[key]?

/-- `required_string`; also `take_required_string`, but for the removal. -/
def requiredString (fields : HeaderFields) (key : String) : Except AnyError String := do
  let bytes ← requiredBytes fields key
  withContext ("field '" ++ key ++ "' is not valid utf8") (fromUtf8 bytes)

/-- `to_string_map`. -/
def toStringMap (fields : HeaderFields) : Except AnyError (BTreeMap String String) :=
  fields.toList.foldlM (fun out e => do
    let value ←
      withContext ("invalid utf8 value for metadata field '" ++ e.1 ++ "'") (fromUtf8 e.2)
    pure (out.insert e.1 value)) ∅

/-- `ros_time_to_nanos`. -/
def rosTimeToNanos (raw : Bytes) : UInt64 :=
  .ofNat (ofLe (raw.take 4) * 1000000000 + ofLe ((raw.drop 4).take 4))

/-- `conn_id_to_channel_id`. -/
def connIdToChannelId (connId : UInt32) : Except AnyError UInt16 :=
  if connId.toNat < 2 ^ 16 then .ok (.ofNat connId.toNat)
  else .error (.context ("connection id " ++ toString connId.toNat ++ " exceeds u16 range")
    (.msg "out of range integral type conversion attempted"))

/-! ## Chunks -/

/-- The decoders of the `bzip2` and `lz4` crates, over the data of a chunk.  A read gives at
most 8192 bytes, and none at the end. -/
class BagDecoders (κ : Type) where
  newBz2 : Bytes → κ
  newLz4 : Bytes → Except IoError κ
  read : κ → Except IoError (Bytes × κ)
  finishLz4 : κ → Except IoError Unit

section
variable {κ : Type} [BagDecoders κ]

/-- `read_limited`, once `out` has been read.  There are at most `room` more reads that give
something. -/
def readLimited (expected : Nat) (text : String) : Nat → Bytes → κ → Res AnyError (Bytes × κ)
  | room, out, decoder =>
      match BagDecoders.read decoder with
      | .error e => .err (.context text (.io e))
      | .ok ([], decoder) =>
          if out.length = expected then .ok (out, decoder)
          else .err (.msg ("decompressed ROS1 chunk size mismatch: declared " ++ toString expected ++
            ", got " ++ toString out.length))
      | .ok (b :: piece, decoder) =>
          if out.length + (b :: piece).length ≤ expected then
            match room with
            | 0 => .panic
            | room + 1 => readLimited expected text room (out ++ b :: piece) decoder
          else .err (.msg ("decompressed ROS1 chunk exceeded declared size " ++ toString expected))

variable (κ) in
/-- `decompress_chunk`. -/
def decompressChunk (compression : String) (compressed : Bytes) (expected : Nat) :
    Res AnyError Bytes :=
  if compression = "none" then
    if compressed.length = expected then .ok compressed
    else .err (.msg ("chunk size mismatch for uncompressed chunk: header declared " ++
      toString expected ++ " bytes, found " ++ toString compressed.length ++ " bytes"))
  else if compression = "bz2" then do
    let (out, _) ← readLimited expected "failed to decompress bz2 ROS1 bag chunk" expected []
      (BagDecoders.newBz2 compressed : κ)
    pure out
  else if compression = "lz4" then
    match (BagDecoders.newLz4 compressed : Except IoError κ) with
    | .error e => .err (.context "failed to initialize lz4 decoder for ROS1 bag chunk" (.io e))
    | .ok decoder => do
        let (out, decoder) ←
          readLimited expected "failed to decompress lz4 ROS1 bag chunk" expected [] decoder
        match BagDecoders.finishLz4 decoder with
        | .error e => .err (.context "failed finalizing lz4 ROS1 bag chunk decoder" (.io e))
        | .ok () => pure out
  else .err (.msg ("unsupported ROS1 bag chunk compression '" ++ compression ++ "'"))

end

/-! ## Records -/

/-- The writer and the state of a conversion. -/
abbrev Conversion (σ : Type) := Writer σ Stream × ConversionState

section
variable {σ : Type} [Encoders σ]

/-- The id of the schema with this key: the one in the state, or a new one. -/
def schemaIdFor (key : SchemaKey) (definition : Bytes) (c : Conversion σ) :
    Res AnyError (UInt16 × Conversion σ) :=
  match c.2.schemas[key]? with
  | some id => .ok (id, c)
  | none => do
      let (id, writer) ← calling "failed to write ROS1 schema"
        (Writer.addSchema key.msgType "ros1msg" definition c.1)
      pure (id, writer, { c.2 with schemas := c.2.schemas.insert key id })

/-- `process_connection`. -/
def processConnection (fields : HeaderFields) (data : Bytes) (c : Conversion σ) :
    Res AnyError (Conversion σ) := do
  let connId ← Res.lift (headerU32 fields KEY_CONN)
  let topic ← Res.lift (headerString fields KEY_TOPIC)
  let connData ← Res.lift (parseHeaderFields data)
  let msgType ← Res.lift (requiredString connData KEY_TYPE)
  let connData := connData.erase KEY_TYPE
  let md5sum ← Res.lift (requiredString connData KEY_MD5SUM)
  let definition ← Res.lift (requiredBytes connData KEY_MESSAGE_DEFINITION)
  let connData := connData.erase KEY_MESSAGE_DEFINITION
  let (schemaId, writer, state) ← schemaIdFor ⟨msgType, md5sum⟩ definition c
  let metadata ← Res.lift (toStringMap connData)
  let channelId ← Res.lift (connIdToChannelId connId)
  let channel : Channel :=
    { id := channelId
      topic
      schema := some { id := schemaId, name := msgType, encoding := "ros1msg", data := definition }
      messageEncoding := "ros1"
      metadata }
  pure (writer, { state with connections := state.connections.insert connId channel })

/-- `process_message`. -/
def processMessage (fields : HeaderFields) (data : Bytes) (c : Conversion σ) :
    Res AnyError (Conversion σ) := do
  let connId ← Res.lift (headerU32 fields KEY_CONN)
  let time ← Res.lift (headerBytes fields KEY_TIME)
  if time.length ≠ 8 then
    .err (.msg ("invalid ROS time field size for conn " ++ toString connId.toNat ++
      ": expected 8 bytes, got " ++ toString time.length))
  else
    let logTime := rosTimeToNanos time
    match c.2.connections[connId]? with
    | none => .err (.msg ("message references unknown connection id " ++ toString connId.toNat))
    | some channel => do
        let ((), writer) ← calling "failed to write converted ROS1 message"
          (Writer.write
            { channel, sequence := c.2.sequence, logTime, publishTime := logTime, data } c.1)
        pure (writer, { c.2 with sequence := c.2.sequence + 1 })

variable (κ : Type) [BagDecoders κ]

/-- `process_chunk`.  `inner` processes the records in the chunk. -/
def processChunk (inner : Bytes → Conversion σ → Option (Res AnyError (Conversion σ)))
    (fields : HeaderFields) (data : Bytes) (c : Conversion σ) :
    Option (Res AnyError (Conversion σ)) :=
  let decompressed : Res AnyError Bytes := do
    let compression ← Res.lift (headerString fields KEY_COMPRESSION)
    let expected ← Res.lift (headerU32 fields KEY_SIZE)
    Res.lift (ensureSection "chunk uncompressed size " expected.toNat)
    decompressChunk κ compression data expected.toNat
  match decompressed with
  | .ok decompressed => inner decompressed c
  | .err e => some (.err e)
  | .panic => some .panic

/-- `process_record`. -/
def processRecord (inner : Bytes → Conversion σ → Option (Res AnyError (Conversion σ)))
    (record : BagRecord) (c : Conversion σ) : Option (Res AnyError (Conversion σ)) :=
  let parsed : Except AnyError (HeaderFields × UInt8) := do
    let fields ← parseHeaderFields record.header
    let op ← headerU8 fields KEY_OP
    pure (fields, op)
  match parsed with
  | .error e => some (.err e)
  | .ok (fields, op) =>
      if op = OP_BAG_CONNECTION then some (processConnection fields record.data c)
      else if op = OP_BAG_MESSAGE_DATA then some (processMessage fields record.data c)
      else if op = OP_BAG_CHUNK then processChunk κ inner fields record.data c
      else some (.ok c)

/-- `process_records`.  `none`: the fuel has run out. -/
def processRecords : Nat → Bytes → Conversion σ → Option (Res AnyError (Conversion σ))
  | 0, _, _ => none
  | fuel + 1, input, c =>
      match readBagRecord input with
      | .error e => some (.err e)
      | .ok none => some (.ok c)
      | .ok (some (record, input)) =>
          match processRecord κ (processRecords fuel) record c with
          | some (.ok c) => processRecords fuel input c
          | other => other

/-- `convert_ros1_bag`: the writer at the end, with the output on its stream. -/
def convertRos1Bag (order : HashOrder) (writeOptions : WriteOptions) (fuel : Nat) (input : Bytes) :
    Option (Res AnyError (Writer σ Stream)) :=
  match withContext "failed to read ROS1 bag magic" (readExactly BAG_MAGIC.length input) with
  | .error e => some (.err e)
  | .ok (magic, input) =>
      if magic ≠ BAG_MAGIC then
        some (.err (.msg "invalid ROS1 bag magic (expected '#ROSBAG V2.0\\n')"))
      else
        match Writer.withOptions Stream.empty writeOptions with
        | .err e => some (.err (.context "failed to create MCAP writer" (.mcap e)))
        | .panic => some .panic
        | .ok writer =>
            match processRecords κ fuel input (writer, .new) with
            | some (.ok (writer, _)) =>
                match calling "failed to finalize MCAP writer" (Writer.finish order writer) with
                | .ok (_, writer) => some (.ok writer)
                | .err e => some (.err e)
                | .panic => some .panic
            | some (.err e) => some (.err e)
            | some .panic => some .panic
            | none => none

/-- The conversion comes to `R`: enough fuel gives it. -/
def Converts (order : HashOrder) (writeOptions : WriteOptions) (input : Bytes)
    (R : Res AnyError (Writer σ Stream)) : Prop :=
  ∃ N, ∀ fuel, N ≤ fuel → convertRos1Bag κ order writeOptions fuel input = some R

end
end Mcap

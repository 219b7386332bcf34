import Mcap.Driver
import Mcap.SliceReads

/-! # The doctor

`mcap doctor` scans the records of a file, looks into its chunks, and checks the summary against what
it has seen (`diagnose_mcap` of `doctor.rs`).  A `Finding` is a line of the diagnosis, with the values
that the line shows.

Two loops run on fuel: the scan of the file, and the loop over the records of a chunk.  A chunk is read
through a `ChunkReader`, and the loop goes on behind an error.
-/
namespace Mcap

/-! ## The diagnosis -/

/-- Why `read_record_at_offset` fails. -/
inductive AtOffsetError
  | headerBeyondFile
  | lengthOverflow
  | recordBeyondFile
deriving DecidableEq

/-- The lines of a diagnosis. -/
inductive Finding
  | failedToReadToken (e : McapError)
  | failedToParseRecord (offset : UInt64) (e : McapError)
  | libraryNotSet
  | profileNotWellKnown (profile : String)
  | multipleChunkIndexes (offset : UInt64)
  | multipleStatistics
  | unknownOpcode (opcode : UInt8)
  | noDataEnd
  | noFooter
  | messageIndexOutsideChunks
  | schemaEmpty (id : UInt16) (name : String)
  | schemaWithoutEncoding (id : UInt16)
  | schemaIdReserved
  | schemaNames (id : UInt16) (name previous : String)
  | schemaEncodings (id : UInt16) (encoding previous : String)
  | schemaData (id : UInt16)
  | schemaNotInDataSection (id : UInt16)
  | schemaDuplicate (id : UInt16)
  | channelSchemaIds (id schemaId previous : UInt16)
  | channelTopics (id : UInt16) (topic previous : String)
  | channelMessageEncodings (id : UInt16) (messageEncoding previous : String)
  | channelMetadata (id : UInt16)
  | channelNotInDataSection (id : UInt16)
  | channelDuplicate (id : UInt16)
  | channelUnknownSchema (id schemaId : UInt16)
  | messageBeforeChannel (channelId : UInt16)
  | messageBeforePrevious (logTime : UInt64) (topic : String) (previous : UInt64)
  | messageBeforeLatest (logTime : UInt64) (topic : String) (latest : UInt64)
  | failedToReadChunk (offset : UInt64) (e : McapError)
  | failedToParseNested (offset : UInt64) (e : McapError)
  | illegalInChunk (opcode : UInt8)
  | chunkStartTime (start observed : UInt64)
  | chunkEndTime (stop observed : UInt64)
  | channelNotRepeated (chunkOffset : UInt64) (channelId : UInt16)
  | schemaNotRepeated (chunkOffset : UInt64) (schemaId : UInt16)
  | notAChunk (chunkOffset : UInt64) (opcode : UInt8)
  | chunkLengthMismatch (chunkOffset chunkLength : UInt64) (length : Nat)
  | chunkNotParsed (chunkOffset : UInt64)
  | indexedStartTime (chunkOffset chunk index : UInt64)
  | indexedEndTime (chunkOffset chunk index : UInt64)
  | indexedCompression (chunkOffset : UInt64) (chunk index : String)
  | indexedCompressedSize (chunkOffset chunk index : UInt64)
  | indexedUncompressedSize (chunkOffset chunk index : UInt64)
  | cannotReadChunk (chunkOffset : UInt64) (e : AtOffsetError)
  | statisticsStartTime (start observed : UInt64)
  | statisticsEndTime (stop observed : UInt64)
  | statisticsMessageCount (count : UInt64) (observed : Nat)
deriving DecidableEq

/-- `Diagnosis`. -/
structure Diagnosis where
  errors : List Finding
  warnings : List Finding
deriving DecidableEq

/-- `ParsedSchema`. -/
structure ParsedSchema where
  header : SchemaHeader
  data : Bytes
deriving DecidableEq

/-- `Doctor`.  A set is a map to the unit, and messages are counted without a bound. -/
structure Doctor where
  strictMessageOrder : Bool
  diagnosis : Diagnosis
  schemasInDataSection : BTreeMap UInt16 ParsedSchema
  channelsInDataSection : BTreeMap UInt16 ChannelRecord
  channelsReferencedInChunksByOffset : BTreeMap UInt64 (BTreeMap UInt16 Unit)
  channelIdsInSummarySection : BTreeMap UInt16 Unit
  schemaIdsInSummarySection : BTreeMap UInt16 Unit
  chunkIndexes : BTreeMap UInt64 ChunkIndex
  inSummarySection : Bool
  sawDataEnd : Bool
  sawFooter : Bool
  sawTopLevelMessage : Bool
  messageIndexWarningEmitted : Bool
  lastTopLevelMessageTime : Option UInt64
  globalMaxLogTime : Option UInt64
  minLogTime : Option UInt64
  maxLogTime : Option UInt64
  messageCount : Nat
  statistics : Option Statistics
  duplicateSchemaWarningIds : BTreeMap UInt16 Unit
  duplicateChannelWarningIds : BTreeMap UInt16 Unit

namespace Doctor

/-- `Doctor::new`. -/
def new (strictMessageOrder : Bool) : Doctor where
  strictMessageOrder
  diagnosis := ⟨[], []⟩
  schemasInDataSection := ∅
  channelsInDataSection := ∅
  channelsReferencedInChunksByOffset := ∅
  channelIdsInSummarySection := ∅
  schemaIdsInSummarySection := ∅
  chunkIndexes := ∅
  inSummarySection := false
  sawDataEnd := false
  sawFooter := false
  sawTopLevelMessage := false
  messageIndexWarningEmitted := false
  lastTopLevelMessageTime := none
  globalMaxLogTime := none
  minLogTime := none
  maxLogTime := none
  messageCount := 0
  statistics := none
  duplicateSchemaWarningIds := ∅
  duplicateChannelWarningIds := ∅

/-- `Doctor::warn`. -/
def warn (d : Doctor) (finding : Finding) : Doctor :=
  { d with diagnosis := { d.diagnosis with warnings := d.diagnosis.warnings ++ [finding] } }

/-- `Doctor::error`. -/
def error (d : Doctor) (finding : Finding) : Doctor :=
  { d with diagnosis := { d.diagnosis with errors := d.diagnosis.errors ++ [finding] } }

/-- An error, if there is one. -/
def errorIf (d : Doctor) (p : Prop) [Decidable p] (finding : Finding) : Doctor :=
  if p then d.error finding else d

/-- A warning, if there is one. -/
def warnIf (d : Doctor) (p : Prop) [Decidable p] (finding : Finding) : Doctor :=
  if p then d.warn finding else d

/-! ## Schemas, channels and messages -/

/-- `Doctor::examine_schema`. -/
def examineSchema (d : Doctor) (header : SchemaHeader) (data : Bytes) : Doctor :=
  let d := d.warnIf (header.encoding = "" ∧ data = []) (.schemaEmpty header.id header.name)
  let d := d.errorIf (header.encoding = "" ∧ data ≠ []) (.schemaWithoutEncoding header.id)
  let d := d.errorIf (header.id = 0) .schemaIdReserved
  let d :=
    match d.schemasInDataSection[header.id]? with
    | some previous =>
        let d := d.errorIf (previous.header.name ≠ header.name)
          (.schemaNames header.id header.name previous.header.name)
        let d := d.errorIf (previous.header.encoding ≠ header.encoding)
          (.schemaEncodings header.id header.encoding previous.header.encoding)
        d.errorIf (previous.data ≠ data) (.schemaData header.id)
    | none => d
  let known := d.schemasInDataSection.contains header.id
  if d.inSummarySection then
    let d := d.errorIf (known = false) (.schemaNotInDataSection header.id)
    { d with schemaIdsInSummarySection := d.schemaIdsInSummarySection.insert header.id () }
  else
    let d := d.warnIf (known = true ∧ d.duplicateSchemaWarningIds.contains header.id = false)
      (.schemaDuplicate header.id)
    { d with
      duplicateSchemaWarningIds :=
        if known then d.duplicateSchemaWarningIds.insert header.id ()
        else d.duplicateSchemaWarningIds
      schemasInDataSection := d.schemasInDataSection.insert header.id ⟨header, data⟩ }

/-- `Doctor::examine_channel`. -/
def examineChannel (d : Doctor) (channel : ChannelRecord) : Doctor :=
  let d :=
    match d.channelsInDataSection[channel.id]? with
    | some previous =>
        let d := d.errorIf (previous.schemaId ≠ channel.schemaId)
          (.channelSchemaIds channel.id channel.schemaId previous.schemaId)
        let d := d.errorIf (previous.topic ≠ channel.topic)
          (.channelTopics channel.id channel.topic previous.topic)
        let d := d.errorIf (previous.messageEncoding ≠ channel.messageEncoding)
          (.channelMessageEncodings channel.id channel.messageEncoding previous.messageEncoding)
        d.errorIf (previous.metadata ≠ channel.metadata) (.channelMetadata channel.id)
    | none => d
  let known := d.channelsInDataSection.contains channel.id
  let d :=
    if d.inSummarySection then
      let d := d.errorIf (known = false) (.channelNotInDataSection channel.id)
      { d with channelIdsInSummarySection := d.channelIdsInSummarySection.insert channel.id () }
    else
      let d := d.warnIf (known = true ∧ d.duplicateChannelWarningIds.contains channel.id = false)
        (.channelDuplicate channel.id)
      { d with
        duplicateChannelWarningIds :=
          if known then d.duplicateChannelWarningIds.insert channel.id ()
          else d.duplicateChannelWarningIds
        channelsInDataSection := d.channelsInDataSection.insert channel.id channel }
  d.errorIf (channel.schemaId ≠ 0 ∧ d.schemasInDataSection.contains channel.schemaId = false)
    (.channelUnknownSchema channel.id channel.schemaId)

/-- `Doctor::observe_message_time`. -/
def observeMessageTime (d : Doctor) (logTime : UInt64) : Doctor :=
  { d with
    messageCount := d.messageCount + 1
    globalMaxLogTime := some (d.globalMaxLogTime.elim logTime (max · logTime))
    minLogTime := some (d.minLogTime.elim logTime (min · logTime))
    maxLogTime := some (d.maxLogTime.elim logTime (max · logTime)) }

/-- The topic of the channel with this id, if there is one. -/
def topicOf (d : Doctor) (channelId : UInt16) : Option String :=
  d.channelsInDataSection[channelId]?.map ChannelRecord.topic

/-- The topic of a channel, for a line of the diagnosis. -/
def shownTopic (topic : Option String) : String := topic.getD "<unknown>"

/-- `Doctor::examine_top_level_message`. -/
def examineTopLevelMessage (d : Doctor) (header : MessageHeader) : Doctor :=
  let topic := d.topicOf header.channelId
  let d := d.errorIf (topic = none) (.messageBeforeChannel header.channelId)
  let d :=
    match d.lastTopLevelMessageTime with
    | some previous =>
        d.errorIf (header.logTime < previous)
          (.messageBeforePrevious header.logTime (shownTopic topic) previous)
    | none => d
  observeMessageTime { d with lastTopLevelMessageTime := some header.logTime } header.logTime

/-- `Doctor::warn_message_index_outside_chunks_once`. -/
def warnMessageIndexOutsideChunksOnce (d : Doctor) : Doctor :=
  if d.messageIndexWarningEmitted then d
  else warn { d with messageIndexWarningEmitted := true } .messageIndexOutsideChunks

/-! ## Chunks -/

/-- What `examine_chunk` keeps of the messages of a chunk. -/
structure Tally where
  referencedChannels : BTreeMap UInt16 Unit
  minLogTime : Option UInt64
  maxLogTime : Option UInt64
  chunkMessageCount : Nat

/-- No message so far. -/
def Tally.empty : Tally := ⟨∅, none, none, 0⟩

/-- A message of a chunk. -/
def Tally.add (t : Tally) (header : MessageHeader) : Tally where
  referencedChannels := t.referencedChannels.insert header.channelId ()
  minLogTime := some (t.minLogTime.elim header.logTime (min · header.logTime))
  maxLogTime := some (t.maxLogTime.elim header.logTime (max · header.logTime))
  chunkMessageCount := t.chunkMessageCount + 1

/-- A message in a chunk, but for what the chunk keeps of it. -/
def examineNestedMessage (d : Doctor) (header : MessageHeader) : Doctor :=
  let topic := d.topicOf header.channelId
  let d := d.errorIf (topic = none) (.messageBeforeChannel header.channelId)
  let d :=
    match d.globalMaxLogTime with
    | some latest =>
        let finding := Finding.messageBeforeLatest header.logTime (shownTopic topic) latest
        if header.logTime < latest then
          if d.strictMessageOrder then d.error finding else d.warn finding
        else d
    | none => d
  d.observeMessageTime header.logTime

/-- A record of the chunk at `startOffset`, or an error in its place. -/
def examineNested (startOffset : UInt64) : Doctor × Tally → Except McapError Record → Doctor × Tally
  | (d, t), .error e => (d.error (.failedToParseNested startOffset e), t)
  | (d, t), .ok (.schema header data) => (d.examineSchema header data, t)
  | (d, t), .ok (.channel channel) => (d.examineChannel channel, t)
  | (d, t), .ok (.message header _) => (d.examineNestedMessage header, t.add header)
  | (d, t), .ok other => (d.error (.illegalInChunk other.opcode), t)

/-- The end of `examine_chunk`. -/
def closeChunk (header : ChunkHeader) (startOffset : UInt64) : Doctor × Tally → Progress Doctor
  | (d, t) =>
      let keep (d : Doctor) : Doctor :=
        { d with channelsReferencedInChunksByOffset :=
          d.channelsReferencedInChunksByOffset.insert startOffset t.referencedChannels }
      if 0 < t.chunkMessageCount then
        match t.minLogTime, t.maxLogTime with
        | some observedMin, some observedMax =>
            let d := d.errorIf (observedMin ≠ header.messageStartTime)
              (.chunkStartTime header.messageStartTime observedMin)
            let d := d.errorIf (observedMax ≠ header.messageEndTime)
              (.chunkEndTime header.messageEndTime observedMax)
            .done (keep d)
        | _, _ => .panic
      else .done (keep d)

end Doctor

/-- The options of `LinearReader::for_chunk`. -/
def chunkReaderOptions : LinearReaderOptions where
  skipStartMagic := true
  skipEndMagic := true
  validateChunkCrcs := true

/-- The options of the scan. -/
def scanOptions (size : Nat) : LinearReaderOptions where
  emitChunks := true
  validateChunkCrcs := true
  validateDataSectionCrc := true
  validateSummarySectionCrc := true
  recordLengthLimit := some size

section
variable {δ : Type} (D : Decompressor δ)

/-- `LinearReader::for_chunk`. -/
def LinearReader.forChunk (header : ChunkHeader) : Except McapError (LinearReader δ) :=
  match getDecompressor D (fun _ => none) header.compression with
  | (.error e, _) => .error e
  | (.ok decompressor, _) =>
      .ok { LinearReader.newWithOptions chunkReaderOptions with
        currentlyReading := .chunkRecord
        chunkState := some
          { decompressor
            crc := header.uncompressedCrc
            uncompressedDataHasher := some Hasher.new
            uncompressedLen := header.uncompressedSize.toNat
            compressedRemaining := header.compressedSize.toNat
            uncompressedRemaining := header.uncompressedSize.toNat
            paddingAfterCompressedData := 0 } }

/-- `ChunkReader::new`. -/
def chunkReader (header : ChunkHeader) (buf : Bytes) : Except McapError (InnerReader δ) :=
  (LinearReader.forChunk D header).map fun reader => ⟨buf, reader⟩

namespace Doctor

/-- `Doctor::examine_chunk`. -/
def examineChunk (fuel : Nat) (d : Doctor) (header : ChunkHeader) (data : Bytes)
    (startOffset : UInt64) : Progress Doctor :=
  match chunkReader D header data with
  | .error e => .done (d.error (.failedToReadChunk startOffset e))
  | .ok reader =>
      (foldItems (InnerReader.next D) (examineNested startOffset) fuel reader (d, .empty)).bind
        (closeChunk header startOffset)

/-! ## The scan -/

/-- `Doctor::handle_top_level_record`. -/
def handleTopLevelRecord (fuel : Nat) (d : Doctor) (offset : UInt64) : Record → Progress Doctor
  | .header header =>
      let d := d.warnIf (header.library = "") .libraryNotSet
      .done (d.warnIf (header.profile ≠ "" ∧ header.profile ≠ "ros1" ∧ header.profile ≠ "ros2")
        (.profileNotWellKnown header.profile))
  | .footer _ => .done { d with sawFooter := true }
  | .schema header data => .done (d.examineSchema header data)
  | .channel channel => .done (d.examineChannel channel)
  | .message header _ => .done (examineTopLevelMessage { d with sawTopLevelMessage := true } header)
  | .chunk header data => d.examineChunk D fuel header data offset
  | .messageIndex _ =>
      .done (if d.sawTopLevelMessage then d.warnMessageIndexOutsideChunksOnce else d)
  | .chunkIndex index =>
      let d := if d.sawTopLevelMessage then d.warnMessageIndexOutsideChunksOnce else d
      let known := d.chunkIndexes.contains index.chunkStartOffset
      let d := { d with chunkIndexes := d.chunkIndexes.insert index.chunkStartOffset index }
      .done (d.errorIf (known = true) (.multipleChunkIndexes index.chunkStartOffset))
  | .statistics statistics =>
      let d := d.errorIf (d.statistics ≠ none) .multipleStatistics
      .done { d with statistics := some statistics }
  | .dataEnd _ => .done { d with sawDataEnd := true, inSummarySection := true }
  | .attachmentIndex _ => .done d
  | .attachment .. => .done d
  | .metadata _ => .done d
  | .metadataIndex _ => .done d
  | .summaryOffset _ => .done d
  | .unknown opcode _ => .done (d.warn (.unknownOpcode opcode))

/-- A record of the file, at this offset. -/
def scanRecord (fuel : Nat) (d : Doctor) (offset : UInt64) (opcode : UInt8) (data : Bytes) :
    Progress Doctor :=
  match parseRecord opcode data with
  | .ok record => d.handleTopLevelRecord D fuel offset record
  | .err e => .done (d.error (.failedToParseRecord offset e))
  | .panic => .panic

/-- The loop of `Doctor::scan_top_level`: `remaining` is still to be fed, and the next record is at
`nextRecordOffset`. -/
def scanLoop : Nat → LinearReader δ → Bytes → Nat → Doctor → Progress Doctor
  | 0, _, _, _, _ => .spin
  | fuel + 1, reader, remaining, nextRecordOffset, d =>
      match reader.nextEvent D (fuel + 1) with
      | .ret _ none => .done d
      | .ret _ (some (.error e)) => .done (d.error (.failedToReadToken e))
      | .ret reader (some (.ok (.readRequest need))) =>
          let read := min need remaining.length
          match reader.feed read (remaining.take read) with
          | none => .panic
          | some reader => scanLoop fuel reader (remaining.drop read) nextRecordOffset d
      | .ret reader (some (.ok (.record opcode data))) =>
          if 2 ^ 64 ≤ nextRecordOffset + (9 + data.length) then .panic
          else
            (d.scanRecord D fuel (.ofNat nextRecordOffset) opcode data).bind
              (scanLoop fuel reader remaining (nextRecordOffset + (9 + data.length)))
      | .panic => .panic
      | .spin => .spin

/-- `Doctor::scan_top_level`. -/
def scanTopLevel (fuel : Nat) (d : Doctor) (mcap : Bytes) : Progress Doctor :=
  scanLoop D fuel (.newWithOptions (scanOptions mcap.length)) mcap MAGIC.length d

/-- `Doctor::finalize_record_presence`. -/
def finalizeRecordPresence (d : Doctor) : Doctor :=
  let d := d.errorIf (d.sawDataEnd = false) .noDataEnd
  d.errorIf (d.sawFooter = false) .noFooter

end Doctor
end

/-- `RawRecordRef`. -/
structure RawRecordRef where
  opcode : UInt8
  length : Nat
  body : Bytes

/-- `read_record_at_offset`. -/
def readRecordAtOffset (mcap : Bytes) (offset : UInt64) :
    Progress (Except AtOffsetError RawRecordRef) :=
  let start := offset.toNat
  if 2 ^ 64 ≤ start + 9 then .panic
  else if mcap.length < start + 9 then .done (.error .headerBeyondFile)
  else
    match mcap[start]?, sliceOf mcap (start + 1) (start + 9) with
    | some opcode, .ok lengthBytes =>
        let length := ofLe lengthBytes
        let stop := start + 9 + length
        if 2 ^ 64 ≤ stop then .done (.error .lengthOverflow)
        else if mcap.length < stop then .done (.error .recordBeyondFile)
        else
          match sliceOf mcap (start + 9) stop with
          | .ok body => .done (.ok { opcode, length, body })
          | _ => .panic
    | _, _ => .panic

namespace Doctor

/-- A channel that a chunk with an index refers to. -/
def checkReferenced (chunkOffset : UInt64) (d : Doctor) (channelId : UInt16) : Doctor :=
  let d := d.errorIf (d.channelIdsInSummarySection.contains channelId = false)
    (.channelNotRepeated chunkOffset channelId)
  match d.channelsInDataSection[channelId]?.map ChannelRecord.schemaId with
  | some schemaId =>
      d.errorIf (schemaId ≠ 0 ∧ d.schemaIdsInSummarySection.contains schemaId = false)
        (.schemaNotRepeated chunkOffset schemaId)
  | none => d

/-- A chunk against its index. -/
def compareChunk (d : Doctor) (chunkOffset : UInt64) (header : ChunkHeader) (index : ChunkIndex) :
    Doctor :=
  let d := d.errorIf (header.messageStartTime ≠ index.messageStartTime)
    (.indexedStartTime chunkOffset header.messageStartTime index.messageStartTime)
  let d := d.errorIf (header.messageEndTime ≠ index.messageEndTime)
    (.indexedEndTime chunkOffset header.messageEndTime index.messageEndTime)
  let d := d.errorIf (header.compression ≠ index.compression)
    (.indexedCompression chunkOffset header.compression index.compression)
  let d := d.errorIf (header.compressedSize ≠ index.compressedSize)
    (.indexedCompressedSize chunkOffset header.compressedSize index.compressedSize)
  d.errorIf (header.uncompressedSize ≠ index.uncompressedSize)
    (.indexedUncompressedSize chunkOffset header.uncompressedSize index.uncompressedSize)

/-- The record that a chunk index points to. -/
def checkIndexed (d : Doctor) (chunkOffset : UInt64) (index : ChunkIndex) (raw : RawRecordRef) :
    Progress Doctor :=
  if raw.opcode ≠ op.CHUNK then .done (d.error (.notAChunk chunkOffset raw.opcode))
  else if index.chunkLength.toNat ≠ 9 + raw.length then
    .done (d.error (.chunkLengthMismatch chunkOffset index.chunkLength (9 + raw.length)))
  else
    match parseRecord raw.opcode raw.body with
    | .ok (.chunk header _) => .done (d.compareChunk chunkOffset header index)
    | .panic => .panic
    | _ => .done (d.error (.chunkNotParsed chunkOffset))

/-- A chunk index. -/
def validateChunkIndex (mcap : Bytes) (d : Doctor) (chunkOffset : UInt64) (index : ChunkIndex) :
    Progress Doctor :=
  let d :=
    match d.channelsReferencedInChunksByOffset[chunkOffset]? with
    | some channelsReferenced => channelsReferenced.keys.foldl (checkReferenced chunkOffset) d
    | none => d
  (readRecordAtOffset mcap chunkOffset).bind fun
    | .ok raw => d.checkIndexed chunkOffset index raw
    | .error e => .done (d.error (.cannotReadChunk chunkOffset e))

/-- The loop of `Doctor::validate_chunk_indexes`. -/
def validateAll (mcap : Bytes) : List (UInt64 × ChunkIndex) → Doctor → Progress Doctor
  | [], d => .done d
  | (chunkOffset, index) :: rest, d =>
      (d.validateChunkIndex mcap chunkOffset index).bind (validateAll mcap rest)

/-- `Doctor::validate_chunk_indexes`. -/
def validateChunkIndexes (d : Doctor) (mcap : Bytes) : Progress Doctor :=
  validateAll mcap d.chunkIndexes.toList d

/-- `Doctor::validate_statistics`. -/
def validateStatistics (d : Doctor) : Doctor :=
  match d.statistics with
  | none => d
  | some statistics =>
      let d :=
        if 0 < d.messageCount then
          let d :=
            match d.minLogTime with
            | some observed => d.errorIf (statistics.messageStartTime ≠ observed)
                (.statisticsStartTime statistics.messageStartTime observed)
            | none => d
          match d.maxLogTime with
          | some observed => d.errorIf (statistics.messageEndTime ≠ observed)
              (.statisticsEndTime statistics.messageEndTime observed)
          | none => d
        else d
      d.errorIf (statistics.messageCount.toNat ≠ d.messageCount)
        (.statisticsMessageCount statistics.messageCount d.messageCount)

end Doctor

/-- `diagnose_mcap`. -/
def diagnoseMcap {δ : Type} (D : Decompressor δ) (fuel : Nat) (mcap : Bytes)
    (strictMessageOrder : Bool) : Progress Diagnosis :=
  ((Doctor.new strictMessageOrder).scanTopLevel D fuel mcap).bind fun d =>
    (d.finalizeRecordPresence.validateChunkIndexes mcap).bind fun d =>
      .done d.validateStatistics.diagnosis

end Mcap

import Mcap.PyFinishing

/-! # Files of the writer of the Python library

`Sound` says of a file what a reader may rely on: the stream reader reads it to its end and yields
what was written, and the checksum, the statistics, the indexes and the offsets of the footer are
those of the records that are there.  All of it is read off the bytes (`located`, `groups`).

A writer does not always keep that.  Definitions that wait in an open chunk without messages are not
written, but they are counted and repeated; a checksum is written before the definitions that wait
in the record builder are added to it; and the offsets of groups without records are taken for a
summary.  `writer_sound_iff` says that there is nothing else.
-/
namespace Mcap
namespace Py

open Written (allBytes placed)

/-! ## Sound files -/

/-- The records of the data section, as they are yielded. -/
def dataSection (yields : List McapRecord) : List McapRecord :=
  yields.takeWhile fun r => r.dataEnd?.isNone

/-- The records from the end of the data section on. -/
def summarySection (yields : List McapRecord) : List McapRecord :=
  yields.dropWhile fun r => r.dataEnd?.isNone

/-- The places behind the end of the data section. -/
def summaryPlaces (file : Bytes) : List Place :=
  ((located file).dropWhile fun p => p.record.dataEnd?.isNone).tail

/-- The offset of the first record of a kind, or 0. -/
def firstOffset (kind : McapRecord → Bool) (places : List Place) : Nat :=
  ((places.find? fun p => kind p.record).map Place.offset).getD 0

/-- A record of a group of the summary. -/
def McapRecord.inSummary (record : McapRecord) : Bool :=
  record.summaryOffset?.isNone && record.footer?.isNone

/-- **Statistics** of some records, in so many chunks. -/
structure Describes (s : Statistics) (records : List McapRecord) (chunks : Nat) : Prop where
  messageCount : s.messageCount = (records.filterMap McapRecord.message?).length
  schemaCount : s.schemaCount = (records.filterMap McapRecord.schema?).length
  channelCount : s.channelCount = (records.filterMap McapRecord.channel?).length
  attachmentCount : s.attachmentCount = (records.filterMap McapRecord.attachment?).length
  metadataCount : s.metadataCount = (records.filterMap McapRecord.metadata?).length
  chunkCount : s.chunkCount = chunks
  startTime : s.messageStartTime = leastTime (logTimes records)
  endTime : s.messageEndTime = greatestTime (logTimes records)
  counts : ∀ id, s.channelMessageCounts.get? id =
    countOf id (records.filterMap McapRecord.message?)

/-- **A sound file** of the calls, for a reader. -/
structure Sound (r : StreamReader) (D : Decompressors) (opts : WriterOptions) (calls : List Call)
    (file : Bytes) : Prop where
  reads : (r.records D file).2 = none
  messages : (r.records D file).1.filterMap McapRecord.message? = messagesOf calls
  attachments : (r.records D file).1.filterMap McapRecord.attachment? = attachmentsOf calls
  metadata : (r.records D file).1.filterMap McapRecord.metadata? = metadataOf calls
  dataEnd : ∃ offset length d,
    ((located file).filter fun p => p.record.dataEnd?.isSome) = [⟨offset, length, .dataEnd d⟩] ∧
      (opts.enableDataCrcs = true → d.dataSectionCrc = (crc32 (file.take offset)).toNat)
  schemas : ∀ s, .schema s ∈ summarySection (r.records D file).1 →
    .schema s ∈ dataSection (r.records D file).1
  channels : ∀ c, .channel c ∈ summarySection (r.records D file).1 →
    .channel c ∈ dataSection (r.records D file).1
  statistics : ∀ s, .statistics s ∈ summarySection (r.records D file).1 →
    Describes s (dataSection (r.records D file).1) (groups (located file)).length
  chunkIndexes : (summarySection (r.records D file).1).filterMap McapRecord.chunkIndex? =
    if opts.indexTypes.chunk then (groups (located file)).map Group.chunkIndex else []
  chunks : ∀ g ∈ groups (located file), ∃ data, g.Sound D opts.indexTypes.message data
  messageIndexes : ((located file).map Place.record).filterMap McapRecord.messageIndex? =
    (groups (located file)).flatMap fun g => g.indexes.map IndexPlace.index
  attachmentIndexes : (summarySection (r.records D file).1).filterMap McapRecord.attachmentIndex? =
    if opts.indexTypes.attachment then (located file).filterMap attachmentIndexOf else []
  metadataIndexes : (summarySection (r.records D file).1).filterMap McapRecord.metadataIndex? =
    if opts.indexTypes.metadata then (located file).filterMap metadataIndexOf else []
  footer : ∃ offset length f, (summaryPlaces file).getLast? =
      some ⟨offset, length, McapRecord.footer f⟩ ∧
    f.summaryStart = firstOffset McapRecord.inSummary (summaryPlaces file) ∧
    f.summaryOffsetStart = firstOffset (fun r => r.summaryOffset?.isSome) (summaryPlaces file)

/-! ## Reading a file that was written -/

/-- What is yielded for records. -/
def shownOf (D : Decompressors) : McapRecord → List McapRecord
  | .chunk chunk => (breakupChunk D chunk true).toOption.getD []
  | record => [record]

/-- A reader of files with magic bytes, chunks and checksums. -/
structure Validating (r : StreamReader) : Prop where
  skipMagic : r.skipMagic = false
  emitChunks : r.emitChunks = false
  validateCrcs : r.validateCrcs = true

section
variable {r : StreamReader} {D : Decompressors}

theorem deliver_inData (hr : Validating r) {record : McapRecord} (h : record.InData D) :
    r.deliver (fun chunk => breakupChunk D chunk r.validateCrcs) (some record) =
      .ok (shownOf D record, false) := by
  cases record with
  | chunk chunk =>
    obtain ⟨records, hrecords, -⟩ := h
    show (if r.emitChunks then _ else _ : Except PyError _) = _
    rw [hr.emitChunks, hr.validateCrcs, if_neg Bool.false_ne_true]
    show ((breakupChunk D chunk true).bind fun records => .ok (records, false)) =
      .ok ((breakupChunk D chunk true).toOption.getD [], false)
    rw [hrecords]
    rfl
  | header _ => rfl
  | schema _ => rfl
  | channel _ => rfl
  | message _ => rfl
  | attachment _ => rfl
  | metadata _ => rfl
  | messageIndex _ => rfl
  | _ => cases h

/-- Records that are in a summary, or end a data section. -/
def McapRecord.Trailing : McapRecord → Prop
  | .dataEnd _ => True
  | .schema _ => True
  | .channel _ => True
  | .statistics _ => True
  | .chunkIndex _ => True
  | .attachmentIndex _ => True
  | .metadataIndex _ => True
  | .summaryOffset _ => True
  | _ => False

theorem deliver_trailing {record : McapRecord} (h : record.Trailing)
    (breakup : Chunk → Except PyError (List McapRecord)) :
    r.deliver breakup (some record) = .ok ([record], false) := by
  cases record <;> first | rfl | cases h

/-- **What is delivered for a file.** -/
theorem delivered_file (hr : Validating r) {data rest : List McapRecord} {footer : Footer}
    (hdata : ∀ x ∈ data, x.InData D) (hrest : ∀ x ∈ rest, x.Trailing) :
    delivered r D ((data ++ (rest ++ [McapRecord.footer footer])).map some) =
      (data.flatMap (shownOf D) ++ (rest ++ [.footer footer]), none) := by
  induction data with
  | nil =>
    induction rest with
    | nil => rfl
    | cons x rest ih =>
      have ih := ih fun y hy => hrest y (List.mem_cons_of_mem _ hy)
      rw [List.nil_append, List.flatMap_nil, List.nil_append] at ih ⊢
      rw [List.cons_append, List.map_cons, delivered,
        deliver_trailing (hrest x List.mem_cons_self), ih]
      rfl
  | cons x data ih =>
    have ih := ih fun y hy => hdata y (List.mem_cons_of_mem _ hy)
    rw [List.cons_append, List.map_cons, delivered, deliver_inData hr (hdata x List.mem_cons_self),
      ih, List.flatMap_cons, List.append_assoc]

/-! ## Limits -/

/-- A record that is longer than a reader admits. -/
def Piece.Long (r : StreamReader) (p : Piece) : Prop :=
  ∃ limit, r.recordSizeLimit = some limit ∧ limit < p.body.length

theorem turn_long {p : Piece} (hsize : p.body.length ≤ sysMaxsize) (hlong : p.Long r)
    (input rest : Bytes) (pos : Nat) :
    ∃ e, r.turn D input ⟨frame p.opcode p.body ++ rest, pos⟩ = .error e := by
  obtain ⟨limit, hlimit, hlt⟩ := hlong
  have hn : p.body.length < 256 ^ 8 := hsize.trans_lt (by decide)
  have hopcode := reads_readOpcode p.opcode (le 8 p.body.length ++ (p.body ++ rest)) pos
  have hlength : (ReadDataStream.read 8 >>= unpack 8 : Read PyError Nat)
      ⟨le 8 p.body.length ++ (p.body ++ rest), pos + 1⟩ = _ :=
    reads_unpack (by decide) hn (p.body ++ rest) (pos + 1)
  have hcursor : frame p.opcode p.body ++ rest =
      [p.opcode] ++ (le 8 p.body.length ++ (p.body ++ rest)) := by
    unfold frame
    simp
  have hheader : r.readHeader ReadDataStream.read ⟨frame p.opcode p.body ++ rest, pos⟩ =
      .error (.recordLengthLimitExceeded p.opcode p.body.length limit) := by
    rw [hcursor]
    unfold StreamReader.readHeader
    rw [run_bind, hopcode]
    show ((read8 ReadDataStream.read >>= _ : Read PyError (UInt8 × Nat)) _) = _
    rw [run_bind]
    show ((ReadDataStream.read 8 >>= unpack 8 : Read PyError Nat)
      ⟨le 8 p.body.length ++ (p.body ++ rest), pos + 1⟩).bind _ = _
    rw [hlength]
    simp only [hlimit]
    show (if limit < p.body.length then _ else _ : Read PyError (UInt8 × Nat)) _ = _
    rw [if_pos hlt]
    rfl
  refine ⟨.recordLengthLimitExceeded p.opcode p.body.length limit, ?_⟩
  show (r.readHeader ReadDataStream.read ⟨frame p.opcode p.body ++ rest, pos⟩).bind _ = _
  rw [hheader]
  rfl

/-- **The loop over records, one of which is too long**, ends with an exception. -/
theorem loop_long {pieces : List Piece} {input rest : Bytes} {magic : Read PyError Unit}
    {fuel : Nat} (pos : Nat) (hread : ∀ p ∈ pieces, recordOf p.opcode p.body = .ok p.record)
    (hsize : ∀ p ∈ pieces, p.body.length ≤ sysMaxsize)
    (hinner : ∀ p ∈ pieces.dropLast, p.Inner) (hlong : ∃ p ∈ pieces, p.Long r)
    (hfuel : pieces.length ≤ fuel)
    (hcheck : ∀ front p back, pieces = front ++ p :: back →
      r.checkDataEnd (crc32 (input.take (pos + (frames (front.map Piece.framed)).length))).toNat
        p.record = .ok ()) :
    (StreamReader.loop (r.turn D input) magic fuel
      ⟨frames (pieces.map Piece.framed) ++ rest, pos⟩).2 ≠ none := by
  induction pieces generalizing fuel pos with
  | nil =>
    obtain ⟨p, hp, -⟩ := hlong
    cases hp
  | cons p pieces ih =>
    obtain _ | fuel := fuel
    · cases hfuel
    rw [List.map_cons, show p.framed = (p.opcode, p.body) from rfl, frames_cons, List.append_assoc]
    unfold StreamReader.loop
    by_cases hp : p.Long r
    · obtain ⟨e, hturn⟩ := turn_long (D := D) (hsize p List.mem_cons_self) hp input
        (frames (pieces.map Piece.framed) ++ rest) pos
      rw [hturn]
      exact Option.some_ne_none e
    · -- the long record is behind this one, which is no footer then
      have hlong' : ∃ q ∈ pieces, q.Long r := by
        obtain ⟨q, hq, hlong⟩ := hlong
        rcases List.mem_cons.mp hq with rfl | hq
        · exact absurd hlong hp
        · exact ⟨q, hq, hlong⟩
      have hne : pieces ≠ [] := by
        rintro rfl
        obtain ⟨q, hq, -⟩ := hlong'
        cases hq
      rw [List.dropLast_cons_of_ne_nil hne] at hinner
      have hlimit : ∀ limit, r.recordSizeLimit = some limit → p.body.length ≤ limit :=
        fun limit hl => Nat.not_lt.mp fun hlt => hp ⟨limit, hl, hlt⟩
      have hturn := turn_frame (D := D) (hread p List.mem_cons_self) (hsize p List.mem_cons_self)
        hlimit pos (show r.checkDataEnd (crc32 (input.take pos)).toNat _ = _ by
          simpa using hcheck [] p pieces rfl) (frames (pieces.map Piece.framed) ++ rest)
      have hrest := ih (pos + (frame p.opcode p.body).length)
        (fun q hq => hread q (List.mem_cons_of_mem _ hq))
        (fun q hq => hsize q (List.mem_cons_of_mem _ hq))
        (fun q hq => hinner q (List.mem_cons_of_mem _ hq)) hlong' (Nat.le_of_succ_le_succ hfuel)
        (fun front q back heq => by
          have h := hcheck (p :: front) q back (by rw [heq]; rfl)
          rwa [List.map_cons, show p.framed = (p.opcode, p.body) from rfl, frames_cons,
            List.length_append, ← Nat.add_assoc] at h)
      rw [hturn]
      rcases hdeliver : r.deliver (fun chunk => breakupChunk D chunk r.validateCrcs) p.record with
        e | ⟨records, again⟩
      · exact Option.some_ne_none e
      · obtain rfl := deliver_inner (hinner p List.mem_cons_self) hdeliver
        exact hrest

end

end Py
end Mcap

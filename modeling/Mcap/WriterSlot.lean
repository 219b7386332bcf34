import Mcap.Conflicts
import Mcap.Tape

/-! # The slot of the writer

The field `writer` is emptied while a chunk or an attachment is opened and while an
attachment is finished.  If that fails, the slot stays empty, and every later call panics.

`Op.Safe` is the condition on a call under which it does not: what it opens can be opened
(`ChunkOpens`, `AttachmentOpens`), and an attachment it finishes is complete and can be
ended (`AttachmentEnds`).  A stream that fails in any other place leaves the slot full.
-/
namespace Mcap

/-! ## Streams that do not fail for a while -/

namespace Stream

/-- The next `n` calls do not fail. -/
def Quiet (s : Stream) (n : Nat) : Prop := ∀ f ∈ s.faults.take n, f = none

variable {s : Stream} {n : Nat}

theorem Quiet.poll (h : s.Quiet (n + 1)) : s.poll.1 = none ∧ s.poll.2.Quiet n := by
  unfold Stream.poll
  split
  · rename_i hf
    refine ⟨rfl, fun f hm => ?_⟩
    rw [hf, List.take_nil] at hm
    cases hm
  · rename_i f faults hf
    unfold Quiet at h
    rw [hf, List.take_succ_cons] at h
    exact ⟨h f List.mem_cons_self, fun g hg => h g (List.mem_cons_of_mem _ hg)⟩

theorem Quiet.moved (h : s.Quiet (n + 1)) (pos : Nat) : ∃ s', s.moved pos = .ok s' ∧ s'.Quiet n := by
  obtain ⟨hnone, hq⟩ := h.poll
  rcases hp : s.poll with ⟨_ | f, t⟩ <;> rw [hp] at hnone hq
  · exact ⟨{ t with pos }, by rw [Stream.moved, hp], hq⟩
  · cases hnone

theorem Quiet.streamPosition (h : s.Quiet (n + 1)) :
    ∃ pos s', streamPosition s = .ok (pos, s') ∧ s'.Quiet n := by
  obtain ⟨s', hm, hq⟩ := h.moved s.pos
  exact ⟨s'.pos, s', by rw [streamPosition_eq, hm]; rfl, hq⟩

theorem Quiet.writeAll (h : s.Quiet (n + 1)) {b : Bytes} (hb : b ≠ []) :
    ∃ s', writeAll s b = .ok s' ∧ s'.Quiet n := by
  obtain ⟨hnone, hq⟩ := h.poll
  rcases hp : s.poll with ⟨_ | f, t⟩ <;> rw [hp] at hnone hq
  · exact ⟨t.put b, by rw [writeAll_eq, if_neg hb, hp], hq⟩
  · cases hnone

end Stream

/-! ## The sink of a chunk -/

namespace ChunkSink
variable {c : ChunkSink Stream} {n : Nat}

/-- The next `n` calls on the sink do not fail. -/
def Quiet (c : ChunkSink Stream) (n : Nat) : Prop :=
  match c.buffer with
  | some buffer => buffer.faults = []
  | none => c.inner.Quiet n

theorem Quiet.streamPosition (h : c.Quiet (n + 1)) :
    ∃ pos c', streamPosition c = .ok (pos, c') ∧ c'.Quiet n := by
  obtain ⟨inner, _ | buffer⟩ := c
  · obtain ⟨pos, s', hp, hq⟩ := Stream.Quiet.streamPosition h
    exact ⟨pos, ⟨s', none⟩, by rw [streamPosition_eq, seeking, hp], hq⟩
  · obtain ⟨bytes, pos, faults⟩ := buffer
    obtain rfl : faults = [] := h
    exact ⟨pos, ⟨inner, some ⟨bytes, pos, []⟩⟩, rfl, rfl⟩

theorem Quiet.writeAll (h : c.Quiet (n + 1)) {b : Bytes} (hb : b ≠ []) :
    ∃ c', writeAll c b = .ok c' ∧ c'.Quiet n := by
  obtain ⟨inner, _ | buffer⟩ := c
  · obtain ⟨s', hw, hq⟩ := Stream.Quiet.writeAll h hb
    exact ⟨⟨s', none⟩, by rw [writeAll_eq, hw], hq⟩
  · have hf : buffer.faults = [] := h
    refine ⟨⟨inner, some (buffer.put b)⟩, ?_, hf⟩
    simp only [writeAll_eq, Stream.writeAll_eq, if_neg hb, Stream.poll, hf]

theorem writeAll_nil (c : ChunkSink Stream) : ∃ c', writeAll c [] = .ok c' := by
  obtain ⟨inner, _ | buffer⟩ := c
  · exact ⟨⟨inner, none⟩, rfl⟩
  · exact ⟨⟨inner, some buffer⟩, rfl⟩

end ChunkSink

theorem ChunkHeader.bytes_ne_nil (h : ChunkHeader) : h.bytes ≠ [] := by
  intro hnil
  have hlen := ChunkHeader.length_bytes h
  rw [hnil, List.length_nil] at hlen
  omega

theorem AttachmentHeader.bytes_ne_nil (h : AttachmentHeader) : h.bytes ≠ [] := by
  intro hnil
  have hlen := congrArg List.length hnil
  simp [AttachmentHeader.bytes] at hlen

theorem write_ok {W : Type} [Write W] {w w' : W} {b : Bytes} (h : writeAll w b = .ok w') :
    dropWriter (write w b) = .ok w' := dropWriter_eq_ok.mpr (write_eq_ok.mpr h)

theorem position_ok {W : Type} [Seek W] {w : W} {r : Nat × W} (h : streamPosition w = .ok r) :
    dropWriter (position w) = .ok r := dropWriter_eq_ok.mpr (position_eq_ok.mpr h)

/-! ## What can be opened -/

namespace Writer
variable {σ : Type} [Encoders σ] {w : Writer σ Stream}

/-- The encoder of a chunk can be built; the result is what it emits at once. -/
def encoderStart (options : WriteOptions) : Except IoError Bytes :=
  match options.compression with
  | some .zstd =>
      (Encoders.newZstd (σ := σ) options.compressionLevel options.compressionThreads).map
        fun _ => []
  | some .lz4 => (Encoders.newLz4 (σ := σ) options.compressionLevel).map Prod.snd
  | none => .ok []

/-- The calls on the stream that open a chunk: the position, and unless there is a
buffer the position again, the opcode, the header, the position, and what the encoder
emits. -/
def openingCalls (mode : ChunkMode) (emitted : Bytes) : Nat :=
  match mode with
  | .buffered _ => 1
  | .direct => (if emitted = [] then 0 else 1) + 5

/-- A chunk can be opened: the encoder can be built, and the stream does not fail. -/
def ChunkOpens (w : Writer σ Stream) : Prop :=
  ∀ c, w.writer = some (.raw c) → ∃ emitted, encoderStart (σ := σ) w.options = .ok emitted ∧
    c.inner.Quiet (openingCalls w.chunkMode emitted)

omit [Encoders σ] in
/-- An attachment can be opened: the stream does not fail in the position and the three
parts of the record's start. -/
def AttachmentOpens (w : Writer σ Stream) : Prop :=
  ∀ c, w.writer = some (.raw c) → c.inner.Quiet 4

omit [Encoders σ] in
/-- The attachment in progress can be finished: all of it has been written, and the
stream takes the CRC and tells its position. -/
def AttachmentEnds (w : Writer σ Stream) : Prop :=
  ∀ a, w.writer = some (.attachment a) →
    a.attachmentLength.toNat = a.writer.position - a.attachmentOffset ∧
      a.writer.inner.inner.Quiet 2

theorem newCompressor_ok {V : Type} [Write V] {sink sink' : V} {options : WriteOptions}
    {emitted : Bytes} (h : encoderStart (σ := σ) options = .ok emitted)
    (hw : writeAll sink emitted = .ok sink') :
    ∃ c : Compressor σ V, ChunkWriter.newCompressor sink options.compression
      options.compressionLevel options.compressionThreads = .ok c := by
  rcases hc : options.compression with _ | _ | _ <;>
    simp only [encoderStart, hc] at h <;> simp only [ChunkWriter.newCompressor]
  · exact ⟨.null sink, rfl⟩
  · cases hn : Encoders.newZstd (σ := σ) options.compressionLevel options.compressionThreads with
    | error e =>
      rw [hn] at h
      cases h
    | ok encoder => exact ⟨_, rfl⟩
  · cases hn : Encoders.newLz4 (σ := σ) options.compressionLevel with
    | error e =>
      rw [hn] at h
      cases h
    | ok r =>
      rw [hn] at h
      cases h
      exact ⟨_, Res.bind_eq_ok.mpr ⟨sink', write_ok hw, rfl⟩⟩

theorem new_ok {writer : CountingCrcWriter Stream} (h : w.ChunkOpens)
    (hw : w.writer = some (.raw writer)) :
    ∃ c : ChunkWriter σ Stream, ChunkWriter.new writer w.options.compression w.chunkMode
      w.options.emitMessageIndexes w.options.calculateChunkCrcs w.options.compressionLevel
      w.options.compressionThreads = .ok c := by
  obtain ⟨emitted, hstart, hquiet⟩ := h writer hw
  -- enough calls are left for the parts that go to the sink
  obtain ⟨pos, s₀, hp₀, hq₀⟩ : ∃ pos s₀, streamPosition writer.inner = .ok (pos, s₀) ∧
      (ChunkSink.new s₀ w.chunkMode).Quiet ((if emitted = [] then 0 else 1) + 4) := by
    rcases hm : w.chunkMode with _ | buffer <;> rw [hm] at hquiet
    · exact Stream.Quiet.streamPosition hquiet
    · obtain ⟨pos, s₀, hp, -⟩ := Stream.Quiet.streamPosition (n := 0) hquiet
      exact ⟨pos, s₀, hp, rfl⟩
  obtain ⟨headerStart, s₁, hp₁, hq₁⟩ := hq₀.streamPosition
  obtain ⟨s₂, hw₂, hq₂⟩ := hq₁.writeAll (show opAndLen op.CHUNK (2 ^ 64 - 1) ≠ [] by simp [opAndLen])
  obtain ⟨s₃, hw₃, hq₃⟩ := hq₂.writeAll (ChunkHeader.bytes_ne_nil
    (ChunkWriter.dummyHeader w.options.compression))
  obtain ⟨dataStart, s₄, hp₄, hq₄⟩ := hq₃.streamPosition
  obtain ⟨s₅, hw₅⟩ : ∃ s₅, writeAll s₄ emitted = .ok s₅ := by
    by_cases he : emitted = []
    · rw [he]
      exact s₄.writeAll_nil
    · rw [if_neg he] at hq₄
      obtain ⟨s₅, hw₅, -⟩ := ChunkSink.Quiet.writeAll (n := 0) hq₄ he
      exact ⟨s₅, hw₅⟩
  obtain ⟨comp, hcomp⟩ := newCompressor_ok (σ := σ) hstart
    (CountingCrcWriter.writeAll_ok (c := CountingCrcWriter.new s₄ w.options.calculateChunkCrcs) hw₅)
  refine Res.exists_ok_bind (position_ok (CountingCrcWriter.streamPosition_ok hp₀)) ?_
  refine Res.exists_ok_bind (position_ok hp₁) ?_
  refine Res.exists_ok_bind (write_ok hw₂) ?_
  refine Res.exists_ok_bind (write_ok hw₃) ?_
  refine Res.exists_ok_bind (position_ok hp₄) ?_
  exact Res.exists_ok_bind hcomp ⟨_, rfl⟩

omit [Encoders σ] in
theorem attachment_ok {writer : CountingCrcWriter Stream} (h : w.AttachmentOpens)
    (hw : w.writer = some (.raw writer)) (length : UInt64) (header : AttachmentHeader)
    (crc : Bool) :
    ∃ a, AttachmentWriter.new writer length header crc = .ok a := by
  obtain ⟨pos, s₁, hp₁, hq₁⟩ := Stream.Quiet.streamPosition (n := 3) (h writer hw)
  obtain ⟨s₂, hw₂, hq₂⟩ := Stream.Quiet.writeAll (n := 2) hq₁
    (show opAndLen op.ATTACHMENT (header.bytes.length + 8 + length.toNat + 4) ≠ [] by
      simp [opAndLen])
  obtain ⟨s₃, hw₃, hq₃⟩ := Stream.Quiet.writeAll (n := 1) hq₂ header.bytes_ne_nil
  obtain ⟨s₄, hw₄, -⟩ := Stream.Quiet.writeAll (n := 0) hq₃ (show u64 length ≠ [] by simp [u64, le])
  refine Res.exists_ok_bind (position_ok (CountingCrcWriter.streamPosition_ok hp₁)) ?_
  refine Res.exists_ok_bind (write_ok (CountingCrcWriter.writeAll_ok hw₂)) ?_
  refine Res.exists_ok_bind
    (write_ok (CountingCrcWriter.writeAll_ok (CountingCrcWriter.writeAll_ok hw₃))) ?_
  exact Res.exists_ok_bind
    (write_ok (CountingCrcWriter.writeAll_ok (CountingCrcWriter.writeAll_ok hw₄))) ⟨_, rfl⟩

omit [Encoders σ] in
theorem attachment_finish_ok {a : AttachmentWriter (CountingCrcWriter Stream)}
    (h : w.AttachmentEnds) (ha : w.writer = some (.attachment a)) : ∃ r, a.finish = .ok r := by
  obtain ⟨hlen, hq⟩ := h a ha
  obtain ⟨s₁, hw₁, hq₁⟩ := Stream.Quiet.writeAll (n := 1) hq
    (show u32 a.writer.currentChecksum ≠ [] by simp [u32, le])
  obtain ⟨pos, s₂, hp₂, -⟩ := Stream.Quiet.streamPosition (n := 0) hq₁
  unfold AttachmentWriter.finish
  rw [if_neg (not_not_intro hlen)]
  refine Res.exists_ok_bind (write_ok (CountingCrcWriter.writeAll_ok hw₁)) ?_
  exact Res.exists_ok_bind (position_ok (CountingCrcWriter.streamPosition_ok hp₂)) ⟨_, rfl⟩

/-! ## Steps that keep the slot -/

/-- After a successful run of `x`, `P` holds. -/
def After {W α : Type} (x : Exec (Writer σ W) McapError α) (P : Writer σ W → Prop)
    (w : Writer σ W) : Prop :=
  ∀ a w', x w = (.ok a, w') → P w'

section
variable {α β : Type} {w : Writer σ Stream}

omit [Encoders σ] in
theorem slot_bind {x : Exec (Writer σ Stream) McapError α}
    {f : α → Exec (Writer σ Stream) McapError β} (hx : (x w).2.writer ≠ none)
    (hf : ∀ a w', x w = (.ok a, w') → w'.writer ≠ none → (f a w').2.writer ≠ none) :
    ((x >>= f) w).2.writer ≠ none := by
  rw [Exec.bind_run]
  rcases h : x w with ⟨a | e | _, w'⟩ <;> rw [h] at hx
  · exact hf a w' h hx
  · exact hx
  · exact hx

theorem slot_startChunk (hw : w.writer ≠ none) (h : w.options.useChunks = true → w.ChunkOpens) :
    (startChunk w).2.writer ≠ none := by
  by_cases hfin : w.finishedSummary = none
  · rw [startChunk, Exec.bind_ok (assertNotFinished_run hfin), Exec.bind_ok (Exec.get_run w)]
    rcases hmode : w.writer with _ | (c | c | a | s)
    · exact absurd hmode hw
    · simp only [Exec.bind_run, Exec.assert]
      by_cases huse : w.options.useChunks = true
      · obtain ⟨chunk, hnew⟩ := new_ok (h huse) hmode
        simp only [huse, if_true, hnew]
        exact Option.some_ne_none _
      · simp only [if_neg huse]
        exact hw
    · by_cases huse : w.options.useChunks = true <;>
        simp only [Exec.bind_run, Exec.assert, huse, if_true] <;> exact hw
    · exact hw
    · by_cases huse : w.options.useChunks = true <;>
        simp only [Exec.bind_run, Exec.assert, huse, if_true] <;> exact hw
  · rw [startChunk_panic fun hu => hfin hu.2]
    exact hw

theorem slot_finishChunk (hw : w.writer ≠ none) : (finishChunk w).2.writer ≠ none := by
  by_cases hfin : w.finishedSummary = none
  · rw [finishChunk, Exec.bind_ok (assertNotFinished_run hfin), Exec.bind_ok (Exec.get_run w)]
    rcases hmode : w.writer with _ | (c | c | a | s)
    · exact absurd hmode hw
    · exact hw
    · simp only
      rcases c.finish with ⟨writer, mode, index⟩ | ⟨stream, e⟩ | _
      · exact Option.some_ne_none _
      · exact Option.some_ne_none _
      · exact hw
    · exact hw
    · exact hw
  · rw [finishChunk_panic fun hu => hfin hu.2]
    exact hw

omit [Encoders σ] in
theorem slot_onChunk {f : ChunkWriter σ Stream →
    Res (McapError × ChunkWriter σ Stream) (ChunkWriter σ Stream)} (hw : w.writer ≠ none) :
    (onChunk f w).2.writer ≠ none := by
  rw [onChunk]
  split
  · split
    · exact Option.some_ne_none _
    · exact Option.some_ne_none _
    · exact hw
  · exact hw

omit [Encoders σ] in
theorem slot_onRaw {f : CountingCrcWriter Stream →
    Res (McapError × CountingCrcWriter Stream) (α × CountingCrcWriter Stream)}
    (hw : w.writer ≠ none) : (onRaw f w).2.writer ≠ none := by
  rw [onRaw]
  split
  · split
    · exact Option.some_ne_none _
    · exact Option.some_ne_none _
    · exact hw
  · exact hw

theorem slot_topRecord {r : Record} (hw : w.writer ≠ none) : (topRecord r w).2.writer ≠ none :=
  slot_bind (slot_finishChunk hw) fun _ _ _ hw' => slot_onRaw hw'

theorem slot_chunkRecord {r : Record} (hw : w.writer ≠ none)
    (h : w.options.useChunks = true → w.ChunkOpens) : (chunkRecord r w).2.writer ≠ none :=
  slot_bind (slot_startChunk hw h) fun _ _ _ hw' => slot_onChunk hw'

theorem slot_writeDefinition {r : Record} (hw : w.writer ≠ none)
    (h : w.options.useChunks = true → w.ChunkOpens) : (writeDefinition r w).2.writer ≠ none := by
  rw [writeDefinition, Exec.bind_ok (Exec.get_run w)]
  split
  · exact slot_chunkRecord hw h
  · exact slot_topRecord hw

theorem slot_rollChunk (hw : w.writer ≠ none) : (rollChunk w).2.writer ≠ none := by
  rcases rollChunk_cases w with h | h
  · rw [h]
    exact hw
  · rw [h]
    exact slot_finishChunk hw

theorem slot_writeMessageRecord {header : MessageHeader} {data : Bytes} (hw : w.writer ≠ none)
    (h : w.options.useChunks = true → w.ChunkOpens) :
    (writeMessageRecord header data w).2.writer ≠ none := by
  rw [writeMessageRecord, Exec.bind_ok (Exec.get_run w)]
  split
  · exact slot_bind (slot_startChunk hw h) fun _ _ _ hw' => slot_onChunk hw'
  · exact slot_topRecord hw

end

/-! ## Calls that keep the slot -/

/-- A record for a chunk finds one open, or opens one. -/
def SafeRecord (w : Writer σ Stream) : Prop := w.options.useChunks = true → w.ChunkOpens

/-- A schema that `write` has to write can be written. -/
def SafeSchema (schema : Schema) (w : Writer σ Stream) : Prop :=
  w.allSchemaIds[schema.id]? = none → w.SafeRecord

/-- A channel that `write` has to write can be written. -/
def SafeChannel (channel : Channel) (w : Writer σ Stream) : Prop :=
  w.allChannelIds[channel.id]? = none → w.SafeRecord

/-- A message on a known channel can be written, once the chunk before it is finished. -/
def SafeMessage (header : MessageHeader) (w : Writer σ Stream) : Prop :=
  w.allChannelIds.contains header.channelId = true →
    After rollChunk SafeRecord (w.countMessage header)

/-- An attachment can be started, once the chunk before it is finished. -/
def SafeAttachment (w : Writer σ Stream) : Prop := After finishChunk AttachmentOpens w

/-- What `write` does after the schema: the channel and the message. -/
def SafeRest (message : Message) (w : Writer σ Stream) : Prop :=
  SafeChannel message.channel w ∧
    After (registerChannel message.channel) (SafeMessage
      { channelId := message.channel.id
        sequence := message.sequence
        logTime := message.logTime
        publishTime := message.publishTime }) w

/-- The parts of `write`. -/
def SafeWrite (message : Message) (w : Writer σ Stream) : Prop :=
  match message.channel.schema with
  | some schema => SafeSchema schema w ∧ After (registerSchema schema) (SafeRest message) w
  | none => SafeRest message w

end Writer

/-- **A call that cannot lose the slot**: what it opens can be opened, and an attachment
it finishes is complete. -/
def Op.Safe {σ : Type} [Encoders σ] (w : Writer σ Stream) : Op → Prop
  | .addSchema name encoding data =>
      w.canonicalSchemas.getByLeft ⟨name, encoding, data⟩ = none →
        w.allSchemaIds.contains (IdTable.candidate w.allSchemaIds w.nextSchemaId) = false →
        w.SafeRecord
  | .addChannel schemaId topic messageEncoding metadata =>
      w.canonicalChannels.getByLeft ⟨topic, schemaId, messageEncoding, metadata⟩ = none →
        (schemaId = 0 ∨ w.allSchemaIds.contains schemaId = true) →
        w.allChannelIds.contains (IdTable.candidate w.allChannelIds w.nextChannelId) = false →
        w.SafeRecord
  | .write message => w.SafeWrite message
  | .writeToKnownChannel header _ => w.SafeMessage header
  | .writePrivateRecord opcode _ includeInChunks =>
      0x80 ≤ opcode → includeInChunks = true → w.SafeRecord
  | .startAttachment _ _ => w.SafeAttachment
  | .finishAttachment => w.AttachmentEnds
  | .attach attachment =>
      w.SafeAttachment ∧
        Writer.After
          (do
            Writer.startAttachment (.ofNat attachment.data.length)
              { logTime := attachment.logTime
                createTime := attachment.createTime
                name := attachment.name
                mediaType := attachment.mediaType }
            Writer.putAttachmentBytes attachment.data)
          Writer.AttachmentEnds w
  | .putAttachmentBytes _ | .writeMetadata _ | .flush => True

namespace Writer
variable {σ : Type} [Encoders σ] {w : Writer σ Stream} {data : Bytes}

theorem slot_addSchema {name encoding : String} (hs : w.Sound) (hw : w.writer ≠ none)
    (h : (Op.addSchema name encoding data).Safe w) :
    (addSchema name encoding data w).2.writer ≠ none := by
  refine addSchema_cases hs (fun _ _ => hw) (fun _ _ => hw)
    fun canonicalSchemas id hid hc hnone _ _ => ?_
  subst hid
  exact slot_bind (slot_writeDefinition hw (h hc ((BTreeMap.contains_eq_false_iff _ _).mpr hnone)))
    fun _ _ _ hw' => hw'

theorem slot_addChannel {schemaId : UInt16} {topic messageEncoding : String}
    {metadata : BTreeMap String String} (hs : w.Sound) (hw : w.writer ≠ none)
    (h : (Op.addChannel schemaId topic messageEncoding metadata).Safe w) :
    (addChannel schemaId topic messageEncoding metadata w).2.writer ≠ none := by
  refine addChannel_cases hs (fun _ _ => hw) (fun _ _ => hw) (fun _ _ => hw)
    fun canonicalChannels id hid hc hknown hnone _ _ => ?_
  subst hid
  exact slot_bind (slot_writeDefinition hw
    (h hc hknown ((BTreeMap.contains_eq_false_iff _ _).mpr hnone))) fun _ _ _ hw' => hw'

theorem slot_registerSchema {schema : Schema} (hs : w.Sound) (hw : w.writer ≠ none)
    (h : w.SafeSchema schema) : (registerSchema schema w).2.writer ≠ none := by
  refine registerSchema_cases hs (fun _ hid _ _ => ?_) (fun _ hid _ _ => ?_) hw (fun _ _ _ _ => hw)
  · exact slot_writeDefinition hw (h hid)
  · exact slot_writeDefinition hw (h hid)

theorem slot_registerChannel {channel : Channel} (hs : w.Sound) (hw : w.writer ≠ none)
    (h : w.SafeChannel channel) : (registerChannel channel w).2.writer ≠ none := by
  refine registerChannel_cases hs (fun _ hid _ _ => ?_) (fun _ hid _ _ => ?_) hw (fun _ _ _ _ => hw)
  · exact slot_writeDefinition hw (h hid)
  · exact slot_writeDefinition hw (h hid)

theorem slot_writeToKnownChannel {header : MessageHeader} (hw : w.writer ≠ none)
    (h : w.SafeMessage header) :
    (writeToKnownChannel header data w).2.writer ≠ none := by
  by_cases hk : w.allChannelIds.contains header.channelId = true
  · rw [writeToKnownChannel_run hk]
    exact slot_bind (slot_rollChunk hw) fun a w' hrun hw' =>
      slot_writeMessageRecord hw' (h hk a w' hrun)
  · have hfalse : w.allChannelIds.contains header.channelId = false := Bool.eq_false_iff.mpr hk
    rw [writeToKnownChannel, Exec.bind_ok (Exec.get_run w), if_pos hfalse]
    exact hw

theorem slot_startAttachment {length : UInt64} {header : AttachmentHeader} (hw : w.writer ≠ none)
    (h : w.SafeAttachment) : (startAttachment length header w).2.writer ≠ none := by
  refine slot_bind (slot_finishChunk hw) fun a w' hrun hw' => ?_
  rw [Exec.bind_ok (Exec.get_run w')]
  rcases hmode : w'.writer with _ | (c | c | a | s)
  · exact absurd hmode hw'
  · obtain ⟨a, hnew⟩ := attachment_ok (h _ w' hrun) hmode length header
      w'.options.calculateAttachmentCrcs
    simp only [hnew]
    exact Option.some_ne_none _
  · exact hw'
  · exact hw'
  · exact hw'

omit [Encoders σ] in
theorem slot_putAttachmentBytes {bytes : Bytes} (hw : w.writer ≠ none) :
    (putAttachmentBytes bytes w).2.writer ≠ none := by
  rw [putAttachmentBytes]
  split
  · split
    · exact Option.some_ne_none _
    · exact Option.some_ne_none _
    · exact hw
  · exact hw

omit [Encoders σ] in
theorem slot_finishAttachment (hw : w.writer ≠ none) (h : w.AttachmentEnds) :
    (finishAttachment w).2.writer ≠ none := by
  rw [finishAttachment]
  split
  · rename_i a ha
    obtain ⟨⟨writer, index⟩, hfin⟩ := attachment_finish_ok h ha
    simp only [hfin]
    exact Option.some_ne_none _
  · exact hw

theorem slot_writeRest {message : Message} (hs : w.Sound) (hw : w.writer ≠ none)
    (h : w.SafeRest message) : (writeRest message w).2.writer ≠ none :=
  slot_bind (slot_registerChannel hs hw h.1) fun a w' hrun hw' =>
    slot_writeToKnownChannel hw' (h.2 a w' hrun)

theorem slot_write {message : Message} (hs : w.Sound) (hw : w.writer ≠ none)
    (h : w.SafeWrite message) : (write message w).2.writer ≠ none := by
  unfold SafeWrite at h
  cases hschema : message.channel.schema with
  | none =>
    rw [hschema] at h
    rw [write_none hschema]
    exact slot_writeRest hs hw h
  | some schema =>
    rw [hschema] at h
    rw [write_some hschema]
    refine slot_bind (slot_registerSchema hs hw h.1) fun a w' hrun hw' => ?_
    have hg := preserves_registerSchema schema w ⟨hs, .refl w⟩
    rw [hrun] at hg
    exact slot_writeRest hg.sound hw' (h.2 a w' hrun)

theorem slot_writePrivateRecord {opcode : UInt8} {includeInChunks : Bool} (hw : w.writer ≠ none)
    (h : (Op.writePrivateRecord opcode data includeInChunks).Safe w) :
    (writePrivateRecord opcode data includeInChunks w).2.writer ≠ none := by
  rw [writePrivateRecord]
  split
  · exact hw
  · rename_i hop
    rw [Exec.bind_ok (Exec.get_run w)]
    split
    · rename_i hboth
      rw [Bool.and_eq_true] at hboth
      exact slot_chunkRecord hw (h (UInt8.not_lt.mp hop) hboth.2)
    · exact slot_topRecord hw

theorem slot_attach {attachment : Attachment} (hw : w.writer ≠ none)
    (h : (Op.attach attachment).Safe w) : (attach attachment w).2.writer ≠ none := by
  refine slot_bind (slot_startAttachment hw h.1) fun _ w₁ hrun₁ hw₁ => ?_
  refine slot_bind (slot_putAttachmentBytes hw₁) fun _ w₂ hrun₂ hw₂ => ?_
  exact slot_finishAttachment hw₂ (h.2 _ w₂ (Exec.bind_eq_ok.mpr ⟨_, w₁, hrun₁, hrun₂⟩))

theorem slot_finish (order : HashOrder) (hw : w.writer ≠ none) :
    (finish order w).2.writer ≠ none := by
  rw [finish, Exec.bind_ok (Exec.get_run w)]
  rcases w.finishedSummary with _ | summary
  swap
  · exact hw
  · refine slot_bind (slot_finishChunk hw) fun _ w₁ _ hw₁ => ?_
    refine slot_bind ?_ fun summary w₂ _ hw₂ => ?_
    · rw [takeSummary, Exec.bind_ok (Exec.get_run w₁)]
      rcases w₁.summarySchemas with _ | schemas
      · exact hw₁
      · simp only
        rcases w₁.summaryChannels schemas with _ | channels <;> exact hw₁
    · refine slot_bind (x := Exec.modify _) hw₂ fun _ w₃ _ hw₃ => ?_
      refine slot_bind (slot_onRaw hw₃) fun _ w₄ _ hw₄ => ?_
      exact slot_bind (slot_onRaw hw₄) fun _ w₅ _ hw₅ => hw₅

/-- **A safe call keeps the slot full**, whether it succeeds or not. -/
theorem slot_run {op : Op} (hs : w.Sound) (hw : w.writer ≠ none) (h : op.Safe w) :
    (op.run w).2.writer ≠ none := by
  cases op with
  | addSchema name encoding data =>
    exact slot_bind (slot_addSchema hs hw h) fun _ _ _ hw' => hw'
  | addChannel schemaId topic messageEncoding metadata =>
    exact slot_bind (slot_addChannel hs hw h) fun _ _ _ hw' => hw'
  | write message => exact slot_bind (slot_write hs hw h) fun _ _ _ hw' => hw'
  | writeToKnownChannel header data =>
    exact slot_bind (slot_writeToKnownChannel hw h) fun _ _ _ hw' => hw'
  | writePrivateRecord opcode data includeInChunks =>
    exact slot_bind (slot_writePrivateRecord hw h) fun _ _ _ hw' => hw'
  | startAttachment attachmentLength header =>
    exact slot_bind (slot_startAttachment hw h) fun _ _ _ hw' => hw'
  | putAttachmentBytes bytes =>
    exact slot_bind (slot_putAttachmentBytes hw) fun _ _ _ hw' => hw'
  | finishAttachment => exact slot_bind (slot_finishAttachment hw h) fun _ _ _ hw' => hw'
  | attach attachment => exact slot_bind (slot_attach hw h) fun _ _ _ hw' => hw'
  | writeMetadata metadata =>
    refine slot_bind ?_ fun _ _ _ hw' => hw'
    refine slot_bind (slot_finishChunk hw) fun _ w₁ _ hw₁ => ?_
    exact slot_bind (slot_onRaw hw₁) fun _ w₂ _ hw₂ => hw₂
  | flush =>
    refine slot_bind ?_ fun _ _ _ hw' => hw'
    exact slot_bind (slot_finishChunk hw) fun _ w₁ _ hw₁ => slot_onRaw hw₁

end Writer

/-! ## Runs of safe calls -/

/-- The states that safe calls reach, on any stream. -/
inductive Writer.ReachesSafely {σ : Type} [Encoders σ] : Writer σ Stream → Prop
  | start {stream : Stream} {options : WriteOptions} {w : Writer σ Stream} :
      Writer.withOptions stream options = .ok w → ReachesSafely w
  | call {w w' : Writer σ Stream} {r : Res McapError Reply} (op : Op) : ReachesSafely w →
      op.Safe w → op.run w = (r, w') → r ≠ .panic → ReachesSafely w'
  | finish {w w' : Writer σ Stream} {r : Res McapError Summary} (order : HashOrder) :
      ReachesSafely w → Writer.finish order w = (r, w') → r ≠ .panic → ReachesSafely w'

namespace Writer
variable {σ : Type} [Encoders σ] {w : Writer σ Stream}

theorem ReachesSafely.reaches (h : ReachesSafely w) : Reaches w := by
  induction h with
  | start h => exact .start h
  | call op _ _ hrun hr ih => exact .call op ih hrun hr
  | finish order _ hrun hr ih => exact .finish order ih hrun hr

theorem ReachesSafely.slot (h : ReachesSafely w) : w.writer ≠ none := by
  induction h with
  | start h =>
    obtain ⟨c, mode, rfl⟩ := withOptions_eq_ok h
    exact Option.some_ne_none _
  | call op hw hsafe hrun _ ih =>
    have h := slot_run hw.reaches.sound ih hsafe
    rwa [hrun] at h
  | finish order _ hrun _ ih =>
    have h := slot_finish order ih
    rwa [hrun] at h

/-- **The slot is never lost** along safe calls, so `start_chunk` and `finish_chunk`,
which every call begins with, find it full: until the writer is finished they do not
panic. -/
theorem slot_kept (h : ReachesSafely w) :
    w.writer ≠ none ∧ (w.finishedSummary = none →
      (finishChunk w).1 ≠ .panic ∧ (w.options.useChunks = true → (startChunk w).1 ≠ .panic)) := by
  refine ⟨h.slot, fun hfin => ⟨?_, fun huse => ?_⟩⟩
  · exact (finishChunk_writes ⟨h.slot, hfin⟩ h.reaches.sound.placed).1.raises.ne_panic
  · exact (startChunk_writes ⟨h.slot, hfin⟩ h.reaches.sound.placed huse).1.raises.ne_panic

/-- An attachment of one byte, started on a fresh writer. -/
theorem slot_kept_attachment : ∃ w : Writer Empty Stream,
    withOptions Stream.empty plainOptions = .ok w ∧
      (Op.run (.startAttachment 1 ⟨0, 0, "", ""⟩) w).2.writer ≠ none := by
  refine ⟨_, rfl, ?_⟩
  have hstart := ReachesSafely.start (σ := Empty)
    (show withOptions Stream.empty plainOptions = .ok _ from rfl)
  refine (slot_kept (hstart.call (r := .ok .done) (.startAttachment 1 ⟨0, 0, "", ""⟩) ?_ rfl
    (by simp))).1
  -- the stream does not fail
  intro a w' hrun c hc
  cases hrun
  cases hc
  intro f hf
  cases hf

/-- **A lost slot**: an attachment of one byte is finished before its byte is there, and
the next call panics. -/
theorem slot_lost : ∃ w : Writer Empty Stream,
    withOptions Stream.empty plainOptions = .ok w ∧
      (Op.runAll [.startAttachment 1 ⟨0, 0, "", ""⟩, .finishAttachment] w).1 =
        [.ok .done, .err (.attachmentIncomplete 0 1)] ∧
      Reaches (Op.runAll [.startAttachment 1 ⟨0, 0, "", ""⟩, .finishAttachment] w).2 ∧
      (Op.runAll [.startAttachment 1 ⟨0, 0, "", ""⟩, .finishAttachment] w).2.writer = none ∧
      (flush (Op.runAll [.startAttachment 1 ⟨0, 0, "", ""⟩, .finishAttachment] w).2).1 =
        .panic := by
  refine ⟨_, rfl, ?_, ?_, rfl, ?_⟩
  · decide +kernel
  · refine Reaches.runAll (.start (show withOptions Stream.empty plainOptions = .ok _ from rfl)) ?_
    decide +kernel
  · decide +kernel

end Writer
end Mcap

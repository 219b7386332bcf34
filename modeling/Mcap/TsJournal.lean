import Mcap.TsLayout

/-! # The journal of a writer of the TypeScript library

The records that a writer has been given are in its output, or wait in the record builder, or wait in
the open chunk.  `Laid` says what the writer makes of that: the output and its checksum
(`Tape`), the indexes of chunks (`Chunked`), and the chunk that is open (`Holds`).  It holds behind any
calls (`Laid.perform`).

`Marked` is about the indexes of attachments and metadata, which are taken at the end of the output
and are right if nothing waits in the record builder then.

A writer goes on from a `Base`: the magic bytes, or a file that is there already.
-/
namespace Mcap
namespace Ts

open McapRecordBuilder BufferBuilder

/-! ## The output -/

/-- What a writer goes on from. -/
structure Base where
  front : Bytes
  chunkIndices : Option (List ChunkIndex)
  attachmentIndices : Option (List AttachmentIndex)
  metadataIndices : Option (List MetadataIndex)

/-- **The output and the record builder** of a writer. -/
structure Tape (B : Base) (w : McapWriter) (flushed pending : List Item) : Prop where
  writable : w.writable = B.front ++ Item.allBytes flushed
  sized : w.recordWriter.Sized
  buffer : w.recordWriter.buffer = Item.allBytes pending
  crc : ∀ crc, w.dataSectionCrc = some crc → crc = crc32Update crc32Init w.writable

theorem crc32Update_append (prev : UInt32) (data more : Bytes) :
    crc32Update prev (data ++ more) = crc32Update (crc32Update prev data) more := List.foldl_append

theorem crc32Final_crc32Update (data : Bytes) :
    crc32Final (crc32Update crc32Init data) = crc32 data := rfl

section
variable {B : Base} {w w' : McapWriter} {flushed pending : List Item}

theorem Tape.congr (h : Tape B w flushed pending) (hwritable : w'.writable = w.writable)
    (hbuilder : w'.recordWriter = w.recordWriter) (hcrc : w'.dataSectionCrc = w.dataSectionCrc) :
    Tape B w' flushed pending where
  writable := hwritable.trans h.writable
  sized := by rw [hbuilder]; exact h.sized
  buffer := by rw [hbuilder]; exact h.buffer
  crc crc heq := by rw [hwritable]; exact h.crc crc (hcrc ▸ heq)

theorem Tape.flushData (h : Tape B w flushed pending) :
    Tape B w.flushData (flushed ++ pending) [] where
  writable := by
    show w.writable ++ w.recordWriter.buffer = _
    rw [h.writable, h.buffer, Item.allBytes_append, List.append_assoc]
  sized := Sized.reset
  buffer := buffer_reset
  crc crc heq := by
    obtain ⟨crc', hcrc', rfl⟩ := Option.map_eq_some_iff.mp heq
    rw [h.crc crc' hcrc', ← crc32Update_append]
    rfl

theorem Tape.writes (h : Tape B w flushed pending) {l : List Item} {b : McapRecordBuilder}
    (hsized : b.Sized) (hbuffer : b.buffer = w.recordWriter.buffer ++ Item.allBytes l) :
    Tape B { w with recordWriter := b } flushed (pending ++ l) where
  writable := h.writable
  sized := hsized
  buffer := by
    show b.buffer = _
    rw [hbuffer, h.buffer, Item.allBytes_append]
  crc := h.crc

theorem Tape.write (h : Tape B w flushed pending) {i : Item} {b : McapRecordBuilder}
    (hsized : b.Sized) (hbuffer : b.buffer = w.recordWriter.buffer ++ i.record.bytes) :
    Tape B { w with recordWriter := b } flushed (pending ++ [i]) :=
  h.writes hsized (by rw [hbuffer, Item.allBytes_cons, Item.allBytes_nil, List.append_nil])

theorem Tape.position (h : Tape B w flushed pending) :
    w.position = B.front.length + (Item.allBytes flushed).length := by
  unfold McapWriter.position
  rw [h.writable, List.length_append]

end

/-! ## The open chunk -/

/-- The index of a channel of a chunk, if it has messages or waits for one. -/
def indexOf (waiting : Option Nat) (id : Nat) (l : List Place) : Option MessageIndex :=
  if entriesOf id l = [] ∧ waiting ≠ some id then none else some ⟨id, entriesOf id l⟩

/-- **A chunk builder and the records that it holds**; a channel that was written waits for its
first message. -/
structure Holds (options : McapWriterOptions) (c : ChunkBuilder) (inner : List TypedMcapRecord)
    (waiting : Option Nat) : Prop where
  sized : c.recordWriter.Sized
  buffer : c.recordWriter.buffer = recordBytes inner
  count : c.totalMessageCount = (logTimes inner).length
  startTime : c.messageStartTime = (logTimes inner).min?.getD 0
  endTime : c.messageEndTime = (logTimes inner).max?.getD 0
  indexed : options.useMessageIndex = true →
    ∃ d, c.messageIndices = some d ∧ ∀ id, d.get? id = indexOf waiting id (innerPlaces inner)
  unindexed : options.useMessageIndex = false → c.messageIndices = none
  content : ∀ r ∈ inner, r.Content

theorem holds_new (options : McapWriterOptions) :
    Holds options (.new options.useMessageIndex) [] none where
  sized := sized_new
  buffer := rfl
  count := rfl
  startTime := rfl
  endTime := rfl
  indexed h := ⟨∅, by rw [h]; rfl, fun _ => rfl⟩
  unindexed h := by rw [h]; rfl
  content _ hr := absurd hr List.not_mem_nil

section
variable {options : McapWriterOptions} {c : ChunkBuilder} {inner : List TypedMcapRecord}
  {waiting : Option Nat} {r : TypedMcapRecord}

theorem Holds.reset (h : Holds options c inner waiting) : Holds options c.reset [] none where
  sized := Sized.reset
  buffer := buffer_reset
  count := rfl
  startTime := rfl
  endTime := rfl
  indexed hindexed := by
    obtain ⟨d, hd, -⟩ := h.indexed hindexed
    exact ⟨∅, congrArg (Option.map fun _ => (∅ : Dict Nat MessageIndex)) hd, fun _ => rfl⟩
  unindexed hunindexed :=
    congrArg (Option.map fun _ => (∅ : Dict Nat MessageIndex)) (h.unindexed hunindexed)
  content _ hr := absurd hr List.not_mem_nil

theorem logTimes_concat_none (inner : List TypedMcapRecord)
    (h : r.message? = none) : logTimes (inner ++ [r]) = logTimes inner := by
  rw [logTimes_append]
  unfold logTimes
  rw [List.filterMap_cons_none h]
  exact List.append_nil _

theorem entriesOf_concat_none (inner : List TypedMcapRecord) (h : r.message? = none) (id : Nat) :
    entriesOf id (innerPlaces (inner ++ [r])) = entriesOf id (innerPlaces inner) := by
  rw [innerPlaces_concat, entriesOf_append]
  unfold entriesOf
  rw [List.filterMap_cons_none (by simp [Item.plain, h])]
  exact List.append_nil _

theorem forall_concat {inner : List TypedMcapRecord} (h : ∀ r ∈ inner, r.Content)
    (hr : r.Content) : ∀ r' ∈ inner ++ [r], r'.Content := by
  intro r' hr'
  rcases List.mem_append.mp hr' with hr' | hr'
  · exact h r' hr'
  · rw [List.mem_singleton.mp hr']
    exact hr

theorem Holds.addSchema (h : Holds options c inner none) (schema : Schema) :
    Holds options (c.addSchema schema) (inner ++ [.schema schema]) none := by
  obtain ⟨hsized, hbuffer, -⟩ := writes_schema schema c.recordWriter h.sized
  have htimes := logTimes_concat_none inner (show (TypedMcapRecord.schema schema).message? = none from rfl)
  have hentries := entriesOf_concat_none inner
    (show (TypedMcapRecord.schema schema).message? = none from rfl)
  constructor
  · exact hsized
  · show (writeSchema schema c.recordWriter).1.buffer = _
    rw [hbuffer, h.buffer, recordBytes_append]
    simp
  · rw [htimes]
    exact h.count
  · rw [htimes]
    exact h.startTime
  · rw [htimes]
    exact h.endTime
  · intro hindexed
    obtain ⟨d, hd, hget⟩ := h.indexed hindexed
    refine ⟨d, hd, fun id => ?_⟩
    unfold indexOf
    rw [hentries]
    exact hget id
  · exact h.unindexed
  · exact forall_concat h.content trivial

/-- **A channel**, that waits for its first message. -/
theorem Holds.addChannel (h : Holds options c inner none) (info : Channel) :
    Holds options (c.addChannel info) (inner ++ [.channel info]) (some info.id) := by
  obtain ⟨hsized, hbuffer, -⟩ := writes_channel info c.recordWriter h.sized
  have htimes := logTimes_concat_none inner (show (TypedMcapRecord.channel info).message? = none from rfl)
  have hentries := entriesOf_concat_none inner
    (show (TypedMcapRecord.channel info).message? = none from rfl)
  constructor
  · exact hsized
  · show (writeChannel info c.recordWriter).1.buffer = _
    rw [hbuffer, h.buffer, recordBytes_append]
    simp
  · rw [htimes]
    exact h.count
  · rw [htimes]
    exact h.startTime
  · rw [htimes]
    exact h.endTime
  · intro hindexed
    obtain ⟨d, hd, hget⟩ := h.indexed hindexed
    refine ⟨_, congrArg (Option.map _) hd, fun id => ?_⟩
    have hself := hget info.id
    unfold indexOf at hget hself ⊢
    rw [hentries]
    dsimp only
    by_cases hnil : entriesOf info.id (innerPlaces inner) = []
    · -- the channel has no messages yet
      rw [if_pos ⟨hnil, Option.some_ne_none _ ∘ Eq.symm⟩] at hself
      rw [if_pos (by rw [hself]; rfl)]
      by_cases hid : id = info.id
      · subst hid
        rw [Dict.get?_set_self, if_neg (fun h => h.2 rfl), hnil]
      · rw [Dict.get?_set_ne hid, hget id]
        have hne : some info.id ≠ some id := fun heq => hid (Option.some.inj heq).symm
        simp [hne]
    · rw [if_neg (fun h => hnil h.1)] at hself
      rw [if_neg (by rw [hself]; exact Bool.false_ne_true), hget id]
      by_cases hid : id = info.id
      · subst hid
        simp [hnil]
      · have hne : some info.id ≠ some id := fun heq => hid (Option.some.inj heq).symm
        simp [hne]
  · intro hunindexed
    exact congrArg (Option.map _) (h.unindexed hunindexed)
  · exact forall_concat h.content trivial

theorem entriesOf_message (id offset length : Nat) (m : Message) :
    entriesOf id [⟨offset, length, .plain (.message m)⟩] =
      if m.channelId = id then [(m.logTime, offset)] else [] := by
  unfold entriesOf
  by_cases hid : m.channelId = id
  · simp [Item.plain, TypedMcapRecord.message?, hid]
  · simp [Item.plain, TypedMcapRecord.message?, hid]

/-- **A message**: no channel waits then, if it was that of the message. -/
theorem Holds.addMessage (h : Holds options c inner waiting) (m : Message)
    (hwaiting : waiting = none ∨ waiting = some m.channelId) :
    Holds options (c.addMessage m) (inner ++ [.message m]) none := by
  obtain ⟨hsized, hbuffer⟩ := puts_message m c.recordWriter h.sized
  have htimes : logTimes (inner ++ [.message m]) = logTimes inner ++ [m.logTime] := logTimes_append _ _
  have hentries : ∀ id, entriesOf id (innerPlaces (inner ++ [.message m])) =
      entriesOf id (innerPlaces inner) ++
        if m.channelId = id then [(m.logTime, c.recordWriter.length)] else [] := by
    intro id
    have hlength : c.recordWriter.length = (recordBytes inner).length := by
      rw [← h.buffer, h.sized.length_buffer]
      rfl
    rw [innerPlaces_concat, entriesOf_append, hlength, entriesOf_message]
  constructor
  · exact hsized
  · show (writeMessage m c.recordWriter).buffer = _
    rw [hbuffer, h.buffer, recordBytes_append]
    simp
  · rw [htimes, List.length_append]
    exact congrArg (· + 1) h.count
  · rw [htimes, min?_concat, ← h.count, ← h.startTime]
    rfl
  · rw [htimes, max?_concat, ← h.count, ← h.endTime]
    rfl
  · intro hindexed
    obtain ⟨d, hd, hget⟩ := h.indexed hindexed
    refine ⟨_, congrArg (Option.map _) hd, fun id => ?_⟩
    have hself := hget m.channelId
    unfold indexOf at hget hself ⊢
    rw [hentries]
    dsimp only
    by_cases hid : m.channelId = id
    · subst hid
      rw [if_pos rfl, if_neg (by simp), Dict.get?_set_self, hself]
      split
      · rename_i index hsome
        split at hsome
        · cases hsome
        · cases hsome
          rfl
      · rename_i hnone
        split at hnone
        · rename_i hnil
          rw [hnil.1]
        · cases hnone
    · rw [if_neg hid, List.append_nil, Dict.get?_set_ne (Ne.symm hid), hget id]
      have hne : waiting ≠ some id := by
        rcases hwaiting with rfl | rfl
        · exact Option.some_ne_none _ ∘ Eq.symm
        · exact fun heq => hid (Option.some.inj heq)
      simp [hne]
  · intro hunindexed
    exact congrArg (Option.map _) (h.unindexed hunindexed)
  · exact forall_concat h.content trivial

end

/-! ## The journal -/

/-- Records of the data section, without what is about their contents. -/
def Item.Listed (options : McapWriterOptions) (i : Item) : Prop :=
  match i.record with
  | .chunk chunk => Packed options chunk i.inner
  | .messageIndex _ => i.inner = []
  | record => record.Plain ∧ i.inner = []

theorem listed_plain {options : McapWriterOptions} {r : TypedMcapRecord} (h : r.Plain) :
    (Item.plain r).Listed options := by
  cases r <;> first | exact ⟨h, rfl⟩ | cases h

/-- **The indexes of chunks** are those of the chunks in the output. -/
structure Chunked (options : McapWriterOptions) (B : Base) (w : McapWriter) (flushed : List Item) :
    Prop where
  listed : ∀ i ∈ flushed, i.Listed options
  chunkIndices : w.chunkIndices = B.chunkIndices.map fun l => l ++
    (groupsOf (placed B.front.length flushed)).map Group.chunkIndex
  sound : ∀ g ∈ groupsOf (placed B.front.length flushed), g.Sound options

/-- **The indexes of attachments and metadata** are those of the records in the output. -/
structure Marked (B : Base) (w : McapWriter) (flushed : List Item) : Prop where
  attachmentIndices : w.attachmentIndices = B.attachmentIndices.map fun l => l ++
    (placed B.front.length flushed).filterMap attachmentIndexOf
  metadataIndices : w.metadataIndices = B.metadataIndices.map fun l => l ++
    (placed B.front.length flushed).filterMap metadataIndexOf

/-- **A writer and its journal**: the records of the output, those that wait in the record builder, and
those of the open chunk. -/
structure Laid (options : McapWriterOptions) (B : Base) (w : McapWriter) (flushed pending : List Item)
    (inner : List TypedMcapRecord) (waiting : Option Nat) : Prop where
  tape : Tape B w flushed pending
  chunked : Chunked options B w flushed
  opened : ∀ c, w.chunkBuilder = some c → Holds options c inner waiting ∧ pending = []
  closed : w.chunkBuilder = none → inner = []
  content : ∀ i ∈ pending, ∃ r, r.Content ∧ i = .plain r

section
variable {options : McapWriterOptions} {B : Base} {w w' : McapWriter}
  {flushed pending l : List Item} {inner : List TypedMcapRecord} {waiting waiting' : Option Nat}
  {r : TypedMcapRecord} {b : McapRecordBuilder} {c : ChunkBuilder} {schemaId channelId : Nat}
  {message : Message}

theorem placed_behind (front : Bytes) (flushed l : List Item) :
    placed front.length (flushed ++ l) =
      placed front.length flushed ++ placed (front ++ Item.allBytes flushed).length l := by
  rw [placed_append, List.length_append]

/-- **Plain records behind the output.** -/
theorem Chunked.append (h : Chunked options B w flushed) (hl : ∀ i ∈ l, ∃ r, r.Plain ∧ i = .plain r)
    (hchunks : w'.chunkIndices = w.chunkIndices) : Chunked options B w' (flushed ++ l) := by
  have hplain : ∀ i ∈ l, i.record.Plain := by
    intro i hi
    obtain ⟨r, hr, rfl⟩ := hl i hi
    exact hr
  have hgroups : groupsOf (placed B.front.length (flushed ++ l)) =
      groupsOf (placed B.front.length flushed) := by
    rw [placed_behind, groupsOf_append (indexPlaces_plain hplain), groupsOf_plain hplain,
      List.append_nil]
  refine ⟨?_, by rw [hgroups, hchunks, h.chunkIndices], by rw [hgroups]; exact h.sound⟩
  intro i hi
  rcases List.mem_append.mp hi with hi | hi
  · exact h.listed i hi
  · obtain ⟨r, hr, rfl⟩ := hl i hi
    exact listed_plain hr

theorem Chunked.congr (h : Chunked options B w flushed) (hchunks : w'.chunkIndices = w.chunkIndices) :
    Chunked options B w' flushed :=
  ⟨h.listed, hchunks.trans h.chunkIndices, h.sound⟩

theorem Laid.congr (h : Laid options B w flushed pending inner waiting)
    (hwritable : w'.writable = w.writable) (hbuilder : w'.recordWriter = w.recordWriter)
    (hcrc : w'.dataSectionCrc = w.dataSectionCrc) (hopen : w'.chunkBuilder = w.chunkBuilder)
    (hchunks : w'.chunkIndices = w.chunkIndices) :
    Laid options B w' flushed pending inner waiting where
  tape := h.tape.congr hwritable hbuilder hcrc
  chunked := h.chunked.congr hchunks
  opened c hc := h.opened c (hopen ▸ hc)
  closed hc := h.closed (hopen ▸ hc)
  content := h.content

/-! ## Records that wait -/

theorem Laid.pend (h : Laid options B w flushed pending inner waiting)
    (hnone : w.chunkBuilder = none) (hr : r.Content) (hsized : b.Sized)
    (hbuffer : b.buffer = w.recordWriter.buffer ++ r.bytes) :
    Laid options B { w with recordWriter := b } flushed (pending ++ [.plain r]) inner waiting' where
  tape := h.tape.write hsized hbuffer
  chunked := h.chunked.congr rfl
  opened c hc := by
    change w.chunkBuilder = some c at hc
    rw [hnone] at hc
    cases hc
  closed := h.closed
  content i hi := by
    rcases List.mem_append.mp hi with hi | hi
    · exact h.content i hi
    · exact ⟨r, hr, List.mem_singleton.mp hi⟩

theorem Laid.hold (h : Laid options B w flushed pending inner waiting) {c' : ChunkBuilder}
    (hsome : w.chunkBuilder = some c) {inner' : List TypedMcapRecord}
    (hc' : Holds options c' inner' waiting') :
    Laid options B { w with chunkBuilder := some c' } flushed pending inner' waiting' where
  tape := h.tape.congr rfl rfl rfl
  chunked := h.chunked.congr rfl
  opened c₁ hc₁ := by
    cases hc₁
    exact ⟨hc', (h.opened c hsome).2⟩
  closed hnone := by cases hnone
  content := h.content

theorem contentsOf_concat (hr : r.Content) (pending : List Item) :
    contentsOf (pending ++ [.plain r]) = contentsOf pending ++ [r] := by
  rw [contentsOf_append]
  cases r <;> first | rfl | cases hr

/-- What a record that waits is added to. -/
structure Waits (options : McapWriterOptions) (B : Base) (w' : McapWriter) (flushed pending : List Item)
    (inner : List TypedMcapRecord) (r : TypedMcapRecord) (waiting' : Option Nat) : Prop where
  laid : ∃ pending' inner', Laid options B w' flushed pending' inner' waiting' ∧
    contentsOf pending' ++ inner' = contentsOf pending ++ inner ++ [r]

theorem Laid.waits_pending (h : Laid options B w flushed pending inner waiting)
    (hnone : w.chunkBuilder = none) (hr : r.Content) (hsized : b.Sized)
    (hbuffer : b.buffer = w.recordWriter.buffer ++ r.bytes) :
    Waits options B { w with recordWriter := b } flushed pending inner r waiting' := by
  refine ⟨_, _, h.pend hnone hr hsized hbuffer, ?_⟩
  rw [h.closed hnone, contentsOf_concat hr]
  simp

theorem Laid.waits_inner (h : Laid options B w flushed pending inner waiting) {c' : ChunkBuilder}
    (hsome : w.chunkBuilder = some c) (hc' : Holds options c' (inner ++ [r]) waiting') :
    Waits options B { w with chunkBuilder := some c' } flushed pending inner r waiting' :=
  ⟨_, _, h.hold hsome hc', (List.append_assoc _ _ _).symm⟩

/-- A writer that has put a record into the open chunk or, if there is none, into the record builder. -/
def putWith (add : ChunkBuilder → ChunkBuilder) (write : McapRecordBuilder → McapRecordBuilder)
    (w : McapWriter) : McapWriter :=
  match w.chunkBuilder with
  | some c => { w with chunkBuilder := some (add c) }
  | none => { w with recordWriter := write w.recordWriter }

/-- **A record that is put**, and waits. -/
theorem Laid.putWith (h : Laid options B w flushed pending inner waiting) (hr : r.Content)
    (add : ChunkBuilder → ChunkBuilder) (write : McapRecordBuilder → McapRecordBuilder)
    (hadd : ∀ c, Holds options c inner waiting → Holds options (add c) (inner ++ [r]) waiting')
    (hwrite : (write w.recordWriter).Sized ∧
      (write w.recordWriter).buffer = w.recordWriter.buffer ++ r.bytes) :
    Waits options B (putWith add write w) flushed pending inner r waiting' := by
  unfold Ts.putWith
  split
  · rename_i c hchunk
    exact h.waits_inner hchunk (hadd c (h.opened c hchunk).1)
  · rename_i hchunk
    exact h.waits_pending hchunk hr hwrite.1 hwrite.2

theorem Laid.putSchema (h : Laid options B w flushed pending inner none) (schema : Schema) :
    Waits options B (w.putSchema schema) flushed pending inner (.schema schema) none := by
  obtain ⟨hsized, hbuffer, -⟩ := writes_schema schema w.recordWriter h.tape.sized
  exact h.putWith (r := .schema schema) trivial (·.addSchema schema)
    (fun b => (writeSchema schema b).1) (fun _ hc => hc.addSchema schema) ⟨hsized, hbuffer⟩

theorem Laid.putChannel (h : Laid options B w flushed pending inner none) (channel : Channel) :
    Waits options B (w.putChannel channel) flushed pending inner (.channel channel)
      (some channel.id) := by
  obtain ⟨hsized, hbuffer, -⟩ := writes_channel channel w.recordWriter h.tape.sized
  exact h.putWith (r := .channel channel) trivial (·.addChannel channel)
    (fun b => (writeChannel channel b).1) (fun _ hc => hc.addChannel channel) ⟨hsized, hbuffer⟩

theorem Laid.putMessage (h : Laid options B w flushed pending inner waiting) (message : Message)
    (hwaiting : waiting = none ∨ waiting = some message.channelId) :
    Waits options B (w.putMessage message) flushed pending inner (.message message) none :=
  h.putWith (r := .message message) trivial (·.addMessage message) (writeMessage message)
    (fun _ hc => hc.addMessage message hwaiting) (puts_message message w.recordWriter h.tape.sized)

/-! ## Closing a chunk -/

/-- The records of message indexes. -/
def indexItems (indices : List MessageIndex) : List Item :=
  indices.map fun i => .plain (.messageIndex i)

theorem indexPlaces_indexItems (pos : Nat) (i : MessageIndex) (indices : List MessageIndex) :
    indexPlaces (placed pos (indexItems (i :: indices))) =
      ⟨pos, (TypedMcapRecord.messageIndex i).bytes.length, i⟩ ::
        indexPlaces (placed (pos + (TypedMcapRecord.messageIndex i).bytes.length)
          (indexItems indices)) := rfl

theorem map_index_indexPlaces (pos : Nat) (indices : List MessageIndex) :
    (indexPlaces (placed pos (indexItems indices))).map IndexPlace.index = indices := by
  induction indices generalizing pos with
  | nil => rfl
  | cons i indices ih => rw [indexPlaces_indexItems, List.map_cons, ih]

theorem sum_length_indexPlaces (pos : Nat) (indices : List MessageIndex) :
    ((indexPlaces (placed pos (indexItems indices))).map IndexPlace.length).sum =
      (Item.allBytes (indexItems indices)).length := by
  induction indices generalizing pos with
  | nil => rfl
  | cons i indices ih =>
    rw [indexPlaces_indexItems, List.map_cons, List.sum_cons, ih]
    exact List.length_append.symm

/-- **What the records of message indexes come to.** -/
theorem writeMessageIndices_spec (start : Nat) (indices : List MessageIndex) (hb : b.Sized) :
    (McapWriter.writeMessageIndices start indices b).1.Sized ∧
    (McapWriter.writeMessageIndices start indices b).1.buffer =
      b.buffer ++ Item.allBytes (indexItems indices) ∧
    (McapWriter.writeMessageIndices start indices b).2.1 = (∅ : Dict Nat Nat).setAll
      ((indexPlaces (placed start (indexItems indices))).map fun i => (i.index.channelId, i.offset)) ∧
    (McapWriter.writeMessageIndices start indices b).2.2 =
      (Item.allBytes (indexItems indices)).length := by
  unfold McapWriter.writeMessageIndices
  -- the fold, from any offsets and length on
  have main : ∀ (offsets : Dict Nat Nat) (length : Nat) (b : McapRecordBuilder), b.Sized →
      ∀ x, x = indices.foldl (fun (acc : McapRecordBuilder × Dict Nat Nat × Nat) i =>
        ((writeMessageIndex i acc.1).1, acc.2.1.set i.channelId (start + acc.2.2),
          acc.2.2 + (writeMessageIndex i acc.1).2)) (b, offsets, length) →
      x.1.Sized ∧ x.1.buffer = b.buffer ++ Item.allBytes (indexItems indices) ∧
      x.2.1 = offsets.setAll ((indexPlaces (placed (start + length) (indexItems indices))).map
        fun i => (i.index.channelId, i.offset)) ∧
      x.2.2 = length + (Item.allBytes (indexItems indices)).length := by
    induction indices with
    | nil =>
      rintro offsets length b hb _ rfl
      exact ⟨hb, (List.append_nil _).symm, rfl, rfl⟩
    | cons i indices ih =>
      rintro offsets length b hb _ rfl
      obtain ⟨hsized, hbuffer, hlength⟩ := writes_messageIndex i b hb
      obtain ⟨hsized', hbuffer', hoffsets, hlength'⟩ := ih (offsets.set i.channelId (start + length))
        (length + (writeMessageIndex i b).2) _ hsized _ rfl
      refine ⟨hsized', ?_, ?_, ?_⟩
      · refine hbuffer'.trans ?_
        rw [hbuffer, List.append_assoc]
        rfl
      · refine hoffsets.trans ?_
        rw [hlength, ← Nat.add_assoc, indexPlaces_indexItems]
        rfl
      · refine hlength'.trans ?_
        rw [hlength, Nat.add_assoc]
        exact congrArg _ List.length_append.symm
  obtain ⟨hsized, hbuffer, hoffsets, hlength⟩ := main ∅ 0 b hb _ rfl
  exact ⟨hsized, hbuffer, hoffsets, hlength.trans (Nat.zero_add _)⟩

theorem Holds.indices (h : Holds options c inner none) :
    (c.indices.map MessageIndex.channelId).Nodup ∧
    (∀ i ∈ c.indices, i.records = entriesOf i.channelId (innerPlaces inner)) ∧
    ∀ id, (∃ i ∈ c.indices, i.channelId = id) ↔
      options.useMessageIndex = true ∧ entriesOf id (innerPlaces inner) ≠ [] := by
  cases huse : options.useMessageIndex with
  | false =>
    have hnil : c.indices = [] := by
      unfold ChunkBuilder.indices
      rw [h.unindexed huse]
    rw [hnil]
    refine ⟨List.nodup_nil, fun i hi => absurd hi List.not_mem_nil, fun id => ?_⟩
    simp
  | true =>
    obtain ⟨d, hd, hget⟩ := h.indexed huse
    have hindices : c.indices = d.values := by
      unfold ChunkBuilder.indices
      rw [hd]
    have hitem : ∀ e ∈ d.items, entriesOf e.1 (innerPlaces inner) ≠ [] ∧
        e.2 = ⟨e.1, entriesOf e.1 (innerPlaces inner)⟩ := by
      intro e he
      have hsome := hget e.1
      rw [Dict.get?_eq_some.mpr he] at hsome
      unfold indexOf at hsome
      split at hsome
      · cases hsome
      · rename_i hne
        refine ⟨fun hnil => hne ⟨hnil, Option.some_ne_none _ ∘ Eq.symm⟩, Option.some.inj hsome⟩
    have hkeys : d.values.map MessageIndex.channelId = d.keys := by
      unfold Dict.values Dict.keys
      rw [List.map_map]
      refine List.map_congr_left fun e he => ?_
      show e.2.channelId = e.1
      rw [(hitem e he).2]
    rw [hindices]
    refine ⟨by rw [hkeys]; exact d.nodup, ?_, fun id => ?_⟩
    · intro i hi
      obtain ⟨e, he, rfl⟩ := List.mem_map.mp hi
      rw [(hitem e he).2]
    · constructor
      · rintro ⟨i, hi, rfl⟩
        obtain ⟨e, he, rfl⟩ := List.mem_map.mp hi
        refine ⟨rfl, ?_⟩
        rw [(hitem e he).2]
        exact (hitem e he).1
      · rintro ⟨-, hne⟩
        have hsome := hget id
        unfold indexOf at hsome
        rw [if_neg fun h => hne h.1] at hsome
        have hmem := Dict.get?_eq_some.mp hsome
        exact ⟨_, List.mem_map_of_mem hmem, rfl⟩

/-- The chunk record of a builder. -/
def chunkOf (options : McapWriterOptions) (c : ChunkBuilder) : Chunk where
  messageStartTime := c.messageStartTime
  messageEndTime := c.messageEndTime
  uncompressedSize := c.buffer.length
  uncompressedCrc := (crc32 c.buffer).toNat
  compression := match options.compressChunk with
    | some compressChunk => (compressChunk c.buffer).1
    | none => ""
  records := match options.compressChunk with
    | some compressChunk => (compressChunk c.buffer).2
    | none => c.buffer

/-- The items of a chunk that is closed. -/
def chunkItems (options : McapWriterOptions) (c : ChunkBuilder) (inner : List TypedMcapRecord) :
    List Item := ⟨.chunk (chunkOf options c), inner⟩ :: indexItems c.indices

theorem Holds.packed (h : Holds options c inner none)
    (hmessages : c.numMessages ≠ 0) : Packed options (chunkOf options c) inner := by
  have hbuffer : c.buffer = recordBytes inner := h.buffer
  constructor
  · exact h.content
  · unfold chunkOf
    rw [← hbuffer]
    cases options.compressChunk <;> rfl
  · exact congrArg List.length hbuffer
  · exact congrArg (fun b => (crc32 b).toNat) hbuffer
  · exact h.startTime
  · exact h.endTime
  · intro hnil
    refine hmessages ?_
    show c.totalMessageCount = 0
    rw [h.count, hnil]
    rfl

theorem groupsOf_chunkItems (c : ChunkBuilder) (pos : Nat) :
    groupsOf (placed pos (chunkItems options c inner)) =
      [⟨pos, (TypedMcapRecord.chunk (chunkOf options c)).bytes.length, chunkOf options c, inner,
        indexPlaces (placed (pos + (TypedMcapRecord.chunk (chunkOf options c)).bytes.length)
          (indexItems c.indices))⟩] := by
  have hnone : ∀ p ∈ placed (pos + (TypedMcapRecord.chunk (chunkOf options c)).bytes.length)
      (indexItems c.indices), p.item.record.chunk? = none := by
    refine forall_placed (P := fun i => i.record.chunk? = none) fun i hi => ?_
    obtain ⟨index, -, rfl⟩ := List.mem_map.mp hi
    rfl
  show _ :: groupsOf (placed (pos + (TypedMcapRecord.chunk (chunkOf options c)).bytes.length)
    (indexItems c.indices)) = _
  rw [groupsOf_eq_nil hnone]
  rfl

theorem Holds.group (h : Holds options c inner none) (hmessages : c.numMessages ≠ 0)
    (offset length pos : Nat) :
    Group.Sound options ⟨offset, length, chunkOf options c, inner,
      indexPlaces (placed pos (indexItems c.indices))⟩ := by
  obtain ⟨hnodup, hentries, hcovered⟩ := h.indices
  have hmap := map_index_indexPlaces pos c.indices
  have hmem : ∀ index, index ∈ c.indices ↔
      ∃ i ∈ indexPlaces (placed pos (indexItems c.indices)), i.index = index := by
    intro index
    rw [← hmap, List.mem_map]
    simp only [hmap]
  refine ⟨h.packed hmessages, ?_, ?_, ?_⟩
  · rw [← hmap, List.map_map] at hnodup
    exact hnodup
  · intro i hi
    exact hentries i.index ((hmem _).mpr ⟨i, hi, rfl⟩)
  · intro id
    rw [← hcovered]
    constructor
    · rintro ⟨i, hi, rfl⟩
      exact ⟨i.index, (hmem _).mpr ⟨i, hi, rfl⟩, rfl⟩
    · rintro ⟨index, hindex, rfl⟩
      obtain ⟨i, hi, rfl⟩ := (hmem _).mp hindex
      exact ⟨i, hi, rfl⟩

/-- The index of a chunk that is closed. -/
def chunkIndexOf (options : McapWriterOptions) (c : ChunkBuilder) (offset length : Nat)
    (messageIndexOffsets : Dict Nat Nat) (messageIndexLength : Nat) : ChunkIndex where
  messageStartTime := (chunkOf options c).messageStartTime
  messageEndTime := (chunkOf options c).messageEndTime
  chunkStartOffset := offset
  chunkLength := length
  messageIndexOffsets := messageIndexOffsets
  messageIndexLength := messageIndexLength
  compression := (chunkOf options c).compression
  compressedSize := (chunkOf options c).records.length
  uncompressedSize := (chunkOf options c).uncompressedSize

/-- A writer that has written the record of a chunk. -/
def withChunk (options : McapWriterOptions) (c : ChunkBuilder) (w : McapWriter) : McapWriter :=
  McapWriter.flushData { w with
    statistics := w.statistics.map fun s => { s with chunkCount := s.chunkCount + 1 }
    recordWriter := (writeChunk (chunkOf options c) w.recordWriter).1 }

/-- A writer that has written message indexes. -/
def withIndices (options : McapWriterOptions) (c : ChunkBuilder) (offset length : Nat)
    (x : McapRecordBuilder × Dict Nat Nat × Nat) (w : McapWriter) : McapWriter :=
  McapWriter.flushData { w with
    recordWriter := x.1
    chunkIndices := w.chunkIndices.map fun l => l ++ [chunkIndexOf options c offset length x.2.1 x.2.2]
    chunkBuilder := some c.reset }

theorem finalizeChunk_eq (hchunk : w.chunkBuilder = some c) (hmessages : c.numMessages ≠ 0) :
    w.finalizeChunk options = withIndices options c w.position
      (writeChunk (chunkOf options c) w.recordWriter).2
      (McapWriter.writeMessageIndices (withChunk options c w).position c.indices
        (withChunk options c w).recordWriter) (withChunk options c w) := by
  unfold McapWriter.finalizeChunk
  rw [hchunk]
  dsimp only
  rw [if_neg hmessages]
  unfold withIndices withChunk chunkIndexOf chunkOf
  cases options.compressChunk <;> rfl

/-- **A chunk is closed if there are messages in it.** -/
theorem finalizeChunk_cases (options : McapWriterOptions) (w : McapWriter) :
    (w.finalizeChunk options = w ∧ ∀ c, w.chunkBuilder = some c → c.numMessages = 0) ∨
      ∃ c, w.chunkBuilder = some c ∧ c.numMessages ≠ 0 := by
  unfold McapWriter.finalizeChunk
  cases hchunk : w.chunkBuilder with
  | none => exact .inl ⟨rfl, fun c hc => by cases hc⟩
  | some c =>
    by_cases hmessages : c.numMessages = 0
    · refine .inl ⟨if_pos hmessages, fun c' hc' => ?_⟩
      cases hc'
      exact hmessages
    · exact .inr ⟨c, rfl, hmessages⟩

theorem contentsOf_chunkItems (c : ChunkBuilder) :
    contentsOf (chunkItems options c inner) = inner := by
  have hindexes : contentsOf (indexItems c.indices) = [] := by
    refine List.flatMap_eq_nil_iff.mpr fun i hi => ?_
    obtain ⟨index, -, rfl⟩ := List.mem_map.mp hi
    rfl
  show inner ++ contentsOf (indexItems c.indices) = inner
  rw [hindexes, List.append_nil]

theorem listed_chunkItems (h : Holds options c inner none)
    (hmessages : c.numMessages ≠ 0) : ∀ i ∈ chunkItems options c inner, i.Listed options := by
  intro i hi
  rcases List.mem_cons.mp hi with rfl | hi
  · exact h.packed hmessages
  · obtain ⟨index, -, rfl⟩ := List.mem_map.mp hi
    rfl

/-- **A chunk that is closed.** -/
theorem Laid.finalizeChunk (h : Laid options B w flushed pending inner none) :
    ∃ closed inner', Laid options B (w.finalizeChunk options) (flushed ++ closed) pending inner' none ∧
      contentsOf closed ++ inner' = inner ∧
      (closed = [] ∧ w.finalizeChunk options = w ∨
        ∃ c, w.chunkBuilder = some c ∧ c.numMessages ≠ 0 ∧ closed = chunkItems options c inner) := by
  rcases finalizeChunk_cases options w with ⟨hsame, -⟩ | ⟨c, hchunk, hmessages⟩
  · refine ⟨[], inner, ?_, rfl, .inl ⟨rfl, hsame⟩⟩
    rw [hsame, List.append_nil]
    exact h
  · obtain ⟨hholds, rfl⟩ := h.opened c hchunk
    -- the record of the chunk
    obtain ⟨hsized, hbuffer, hlength⟩ := writes_chunk (chunkOf options c) w.recordWriter h.tape.sized
    have hwritten : Tape B { w with
        statistics := w.statistics.map fun s => { s with chunkCount := s.chunkCount + 1 }
        recordWriter := (writeChunk (chunkOf options c) w.recordWriter).1 } flushed
        ([] ++ [⟨.chunk (chunkOf options c), inner⟩]) :=
      (h.tape.write (i := ⟨.chunk (chunkOf options c), inner⟩) hsized hbuffer).congr rfl rfl rfl
    have htape : Tape B (withChunk options c w)
        (flushed ++ [⟨.chunk (chunkOf options c), inner⟩]) [] := hwritten.flushData
    -- the records of its indexes
    have hposition := htape.position
    obtain ⟨hsized', hbuffer', hoffsets, htotal⟩ := writeMessageIndices_spec
      (withChunk options c w).position c.indices htape.sized
    have hfinal : w.finalizeChunk options = _ := finalizeChunk_eq hchunk hmessages
    generalize McapWriter.writeMessageIndices _ _ _ = x at hsized' hbuffer' hoffsets htotal hfinal
    have htape' := (htape.writes hsized' hbuffer').flushData
    have hplaced := placed_behind B.front flushed (chunkItems options c inner)
    have hgroups : groupsOf (placed B.front.length (flushed ++ chunkItems options c inner)) =
        groupsOf (placed B.front.length flushed) ++
          groupsOf (placed (B.front ++ Item.allBytes flushed).length (chunkItems options c inner)) := by
      rw [hplaced, groupsOf_append rfl]
    rw [groupsOf_chunkItems] at hgroups
    have hitems : flushed ++ chunkItems options c inner =
        flushed ++ [⟨.chunk (chunkOf options c), inner⟩] ++ ([] ++ indexItems c.indices) := by
      rw [List.nil_append, List.append_assoc]
      rfl
    refine ⟨chunkItems options c inner, [], ?_, ?_, .inr ⟨c, hchunk, hmessages, rfl⟩⟩
    · rw [hfinal]
      constructor
      · rw [hitems]
        exact htape'.congr rfl rfl rfl
      · refine ⟨?_, ?_, ?_⟩
        · intro i hi
          rcases List.mem_append.mp hi with hi | hi
          · exact h.chunked.listed i hi
          · exact listed_chunkItems hholds hmessages i hi
        · show w.chunkIndices.map _ = _
          rw [h.chunked.chunkIndices, Option.map_map, hgroups]
          refine congrArg (fun f => Option.map f B.chunkIndices) (funext fun l => ?_)
          rw [List.map_append, ← List.append_assoc]
          refine congrArg (fun i => _ ++ [i]) ?_
          have hone : Item.allBytes [⟨.chunk (chunkOf options c), inner⟩] =
              (TypedMcapRecord.chunk (chunkOf options c)).bytes := by
            rw [Item.allBytes_cons, Item.allBytes_nil, List.append_nil]
          unfold chunkIndexOf Group.chunkIndex
          rw [hoffsets, htotal, hlength, hposition, h.tape.position, sum_length_indexPlaces,
            Item.allBytes_append, hone, List.length_append, List.length_append, ← Nat.add_assoc]
        · rw [hgroups]
          intro g hg
          rcases List.mem_append.mp hg with hg | hg
          · exact h.chunked.sound g hg
          · rw [List.mem_singleton.mp hg]
            exact hholds.group hmessages _ _ _
      · intro c' hc'
        cases hc'
        exact ⟨hholds.reset, rfl⟩
      · exact fun _ => rfl
      · exact fun i hi => absurd hi List.not_mem_nil
    · rw [List.append_nil, contentsOf_chunkItems]

/-! ## Messages -/

/-- Schemas and channels are registered under their ids. -/
structure Registered (w : McapWriter) : Prop where
  schemas : ∀ id schema, w.schemas.get? id = some schema → schema.id = id
  channels : ∀ id channel, w.channels.get? id = some channel → channel.id = id

/-- What a message does not change. -/
structure Leaves (w w' : McapWriter) : Prop where
  nextChannelId : w'.nextChannelId = w.nextChannelId
  nextSchemaId : w'.nextSchemaId = w.nextSchemaId
  schemas : w'.schemas = w.schemas
  channels : w'.channels = w.channels
  attachmentIndices : w'.attachmentIndices = w.attachmentIndices
  metadataIndices : w'.metadataIndices = w.metadataIndices
  chunks : w'.chunkBuilder.isSome = w.chunkBuilder.isSome
  crc : w'.dataSectionCrc.isSome = w.dataSectionCrc.isSome

theorem Leaves.refl (w : McapWriter) : Leaves w w := ⟨rfl, rfl, rfl, rfl, rfl, rfl, rfl, rfl⟩

theorem Leaves.trans {w w' w'' : McapWriter} (h : Leaves w w') (h' : Leaves w' w'') : Leaves w w'' where
  nextChannelId := h'.nextChannelId.trans h.nextChannelId
  nextSchemaId := h'.nextSchemaId.trans h.nextSchemaId
  schemas := h'.schemas.trans h.schemas
  channels := h'.channels.trans h.channels
  attachmentIndices := h'.attachmentIndices.trans h.attachmentIndices
  metadataIndices := h'.metadataIndices.trans h.metadataIndices
  chunks := h'.chunks.trans h.chunks
  crc := h'.crc.trans h.crc

theorem leaves_putWith (add : ChunkBuilder → ChunkBuilder)
    (write : McapRecordBuilder → McapRecordBuilder) (w : McapWriter) :
    Leaves w (putWith add write w) := by
  unfold putWith
  split
  · rename_i c hchunk
    have hsome : w.chunkBuilder.isSome = true := by rw [hchunk, Option.isSome_some]
    exact ⟨rfl, rfl, rfl, rfl, rfl, rfl, Option.isSome_some.trans hsome.symm, rfl⟩
  · exact ⟨rfl, rfl, rfl, rfl, rfl, rfl, rfl, rfl⟩

theorem leaves_putSchema (schema : Schema) (w : McapWriter) : Leaves w (w.putSchema schema) :=
  leaves_putWith (·.addSchema schema) (fun b => (writeSchema schema b).1) w

theorem leaves_putChannel (channel : Channel) (w : McapWriter) : Leaves w (w.putChannel channel) :=
  leaves_putWith (·.addChannel channel) (fun b => (writeChannel channel b).1) w

theorem leaves_putMessage (message : Message) (w : McapWriter) : Leaves w (w.putMessage message) :=
  leaves_putWith (·.addMessage message) (writeMessage message) w

theorem leaves_flushData (w : McapWriter) : Leaves w w.flushData :=
  ⟨rfl, rfl, rfl, rfl, rfl, rfl, rfl, Option.isSome_map⟩

theorem leaves_finalizeChunk (w : McapWriter) : Leaves w (w.finalizeChunk options) := by
  rcases finalizeChunk_cases options w with ⟨hsame, -⟩ | ⟨c, hchunk, hmessages⟩
  · rw [hsame]
    exact .refl w
  · rw [finalizeChunk_eq hchunk hmessages]
    have hfirst : Leaves w (withChunk options c w) :=
      ⟨rfl, rfl, rfl, rfl, rfl, rfl, rfl, Option.isSome_map⟩
    refine ⟨rfl, rfl, rfl, rfl, rfl, rfl, by rw [hchunk]; rfl, ?_⟩
    exact Option.isSome_map.trans hfirst.crc

/-- The record of a schema, if it has not been written. -/
def schemaFor (w : McapWriter) (schemaId : Nat) : List TypedMcapRecord :=
  if schemaId ≠ 0 ∧ schemaId ∉ w.writtenSchemaIds then
    (w.schemas.get? schemaId).toList.map .schema
  else []

/-- **The records that come in front of a message** of a channel. -/
def definitionsFor (w : McapWriter) (channelId : Nat) : List TypedMcapRecord :=
  if channelId ∉ w.writtenChannelIds then
    match w.channels.get? channelId with
    | some channel => schemaFor w channel.schemaId ++ [.channel channel]
    | none => []
  else []

theorem needSchema_eq_ok (h : w.needSchema schemaId = .ok w') :
    (¬ (schemaId ≠ 0 ∧ schemaId ∉ w.writtenSchemaIds) ∧ w' = w) ∨
    ((schemaId ≠ 0 ∧ schemaId ∉ w.writtenSchemaIds) ∧ ∃ schema, w.schemas.get? schemaId = some schema ∧
      w' = { w.putSchema schema with writtenSchemaIds := w.writtenSchemaIds ++ [schemaId] }) := by
  unfold McapWriter.needSchema at h
  split at h
  · rename_i hneed
    cases hget : w.schemas.get? schemaId with
    | none =>
      rw [hget] at h
      cases h
    | some schema =>
      rw [hget] at h
      cases h
      exact .inr ⟨hneed, schema, rfl, rfl⟩
  · rename_i hneed
    cases h
    exact .inl ⟨hneed, rfl⟩

theorem needChannel_eq_ok (h : w.needChannel channelId = .ok w') :
    (channelId ∈ w.writtenChannelIds ∧ w' = w) ∨
    (channelId ∉ w.writtenChannelIds ∧ ∃ channel w₁, w.channels.get? channelId = some channel ∧
      w.needSchema channel.schemaId = .ok w₁ ∧
      w' = { w₁.putChannel channel with writtenChannelIds := w₁.writtenChannelIds ++ [channelId] }) := by
  unfold McapWriter.needChannel at h
  split at h
  · rename_i hneed
    cases hget : w.channels.get? channelId with
    | none =>
      rw [hget] at h
      cases h
    | some channel =>
      rw [hget] at h
      obtain ⟨w₁, hschema, h⟩ := bind_eq_ok h
      cases h
      exact .inr ⟨hneed, channel, w₁, rfl, hschema, rfl⟩
  · rename_i hneed
    cases h
    exact .inl ⟨not_not.mp hneed, rfl⟩

theorem leaves_needSchema (h : w.needSchema schemaId = .ok w') : Leaves w w' := by
  rcases needSchema_eq_ok h with ⟨-, rfl⟩ | ⟨-, schema, -, rfl⟩
  · exact .refl _
  · have hput := leaves_putSchema schema w
    exact ⟨hput.1, hput.2, hput.3, hput.4, hput.5, hput.6, hput.7, hput.8⟩

theorem leaves_needChannel (h : w.needChannel channelId = .ok w') :
    Leaves w w' := by
  rcases needChannel_eq_ok h with ⟨-, rfl⟩ | ⟨-, channel, w₁, -, hschema, rfl⟩
  · exact .refl _
  · have hput := (leaves_needSchema hschema).trans (leaves_putChannel channel w₁)
    exact ⟨hput.1, hput.2, hput.3, hput.4, hput.5, hput.6, hput.7, hput.8⟩

theorem Laid.needSchema (h : Laid options B w flushed pending inner none)
    (hok : w.needSchema schemaId = .ok w') :
    ∃ pending' inner', Laid options B w' flushed pending' inner' none ∧
      contentsOf pending' ++ inner' = contentsOf pending ++ inner ++ schemaFor w schemaId := by
  rcases needSchema_eq_ok hok with ⟨hneed, rfl⟩ | ⟨hneed, schema, hget, rfl⟩
  · refine ⟨pending, inner, h, ?_⟩
    unfold schemaFor
    rw [if_neg hneed, List.append_nil]
  · obtain ⟨pending', inner', hlaid, hcontents⟩ := (h.putSchema schema).laid
    refine ⟨pending', inner', hlaid.congr rfl rfl rfl rfl rfl, ?_⟩
    unfold schemaFor
    rw [if_pos hneed, hget]
    exact hcontents

theorem Laid.needChannel (h : Laid options B w flushed pending inner none) (hr : Registered w)
    (hok : w.needChannel channelId = .ok w') :
    ∃ pending' inner' waiting, Laid options B w' flushed pending' inner' waiting ∧
      (waiting = none ∨ waiting = some channelId) ∧
      contentsOf pending' ++ inner' = contentsOf pending ++ inner ++ definitionsFor w channelId := by
  rcases needChannel_eq_ok hok with ⟨hneed, rfl⟩ | ⟨hneed, channel, w₁, hget, hschema, rfl⟩
  · refine ⟨pending, inner, none, h, .inl rfl, ?_⟩
    unfold definitionsFor
    rw [if_neg (not_not.mpr hneed), List.append_nil]
  · obtain ⟨pending₁, inner₁, hlaid₁, hcontents₁⟩ := h.needSchema hschema
    obtain ⟨pending', inner', hlaid, hcontents⟩ := (hlaid₁.putChannel channel).laid
    rw [hr.channels channelId channel hget] at hlaid
    refine ⟨pending', inner', _, hlaid.congr rfl rfl rfl rfl rfl, .inr rfl, ?_⟩
    unfold definitionsFor
    rw [if_pos hneed, hget, hcontents, hcontents₁, List.append_assoc]

/-- The writer that has counted a message. -/
def counted (message : Message) (w : McapWriter) : McapWriter :=
  { w with statistics := w.statistics.map (Statistics.addMessage message) }

theorem addMessage_eq_error {e : McapWriterError}
    (h : (counted message w).needChannel message.channelId = .error e) :
    w.addMessage options message = (.error e, counted message w) := by
  unfold counted at h ⊢
  unfold McapWriter.addMessage
  simp only [h]

theorem addMessage_eq_ok (h : (counted message w).needChannel message.channelId = .ok w') :
    w.addMessage options message = (.ok (),
      if (w'.putMessage message).chunkFull options then
        (w'.putMessage message).finalizeChunk options
      else w'.putMessage message) := by
  unfold counted at h
  unfold McapWriter.addMessage
  simp only [h]

/-- **A chunk that is closed, or none**: the items of it, what is left in the open chunk, and the
statistics before and after. -/
inductive Closes (options : McapWriterOptions) :
    List Item → List TypedMcapRecord → Option Statistics → Option Statistics → Prop
  | nothing {inner statistics} : Closes options [] inner statistics statistics
  | chunk {c inner statistics} (h : Holds options c inner none) (hmessages : c.numMessages ≠ 0) :
      Closes options (chunkItems options c inner) [] statistics
        (statistics.map fun s => { s with chunkCount := s.chunkCount + 1 })

theorem Closes.unmarked {closed : List Item} {statistics statistics' : Option Statistics}
    (h : Closes options closed inner statistics statistics') :
    ∀ i ∈ closed, i.record.attachment? = none ∧ i.record.metadata? = none := by
  intro i hi
  cases h with
  | nothing => exact absurd hi List.not_mem_nil
  | chunk =>
    rcases List.mem_cons.mp hi with rfl | hi
    · exact ⟨rfl, rfl⟩
    · obtain ⟨index, -, rfl⟩ := List.mem_map.mp hi
      exact ⟨rfl, rfl⟩

theorem Laid.closes (h : Laid options B w flushed pending inner none) :
    ∃ closed inner', Laid options B (w.finalizeChunk options) (flushed ++ closed) pending inner' none ∧
      contentsOf closed ++ inner' = inner ∧
      (closed ≠ [] → pending = [] ∧ w.chunkBuilder.isSome = true) ∧
      Closes options closed inner' w.statistics (w.finalizeChunk options).statistics := by
  obtain ⟨closed, inner', hlaid, hcontents, hclosed⟩ := h.finalizeChunk
  rcases hclosed with ⟨rfl, hsame⟩ | ⟨c, hc, hmessages, rfl⟩
  · refine ⟨[], inner', hlaid, hcontents, fun hne => absurd rfl hne, ?_⟩
    rw [hsame]
    exact .nothing
  · rw [contentsOf_chunkItems] at hcontents
    obtain rfl : inner' = [] := List.append_right_eq_self.mp hcontents
    refine ⟨_, [], hlaid, by rw [contentsOf_chunkItems, List.append_nil],
      fun _ => ⟨(h.opened c hc).2, by rw [hc]; rfl⟩, ?_⟩
    rw [finalizeChunk_eq hc hmessages]
    exact .chunk (h.opened c hc).1 hmessages

theorem statistics_putWith (add : ChunkBuilder → ChunkBuilder)
    (write : McapRecordBuilder → McapRecordBuilder) (w : McapWriter) :
    (putWith add write w).statistics = w.statistics := by
  unfold putWith
  split <;> rfl

theorem statistics_needChannel (h : w.needChannel channelId = .ok w') :
    w'.statistics = w.statistics := by
  rcases needChannel_eq_ok h with ⟨-, rfl⟩ | ⟨-, channel, w₁, -, hschema, rfl⟩
  · rfl
  · refine (statistics_putWith (·.addChannel channel) (fun b => (writeChannel channel b).1) w₁).trans ?_
    rcases needSchema_eq_ok hschema with ⟨-, rfl⟩ | ⟨-, schema, -, rfl⟩
    · rfl
    · exact statistics_putWith (·.addSchema schema) (fun b => (writeSchema schema b).1) w

theorem statistics_putMessage (message : Message) (w : McapWriter) :
    (w.putMessage message).statistics = w.statistics :=
  statistics_putWith (·.addMessage message) (writeMessage message) w

/-- **A message that is accepted**, behind the definitions that it needs. -/
theorem Laid.addMessage (h : Laid options B w flushed pending inner none) (hr : Registered w)
    (hok : (counted message w).needChannel message.channelId = .ok w') :
    ∃ closed pending' inner',
      Laid options B (w.addMessage options message).2 (flushed ++ closed) pending' inner' none ∧
      contentsOf closed ++ (contentsOf pending' ++ inner') =
        contentsOf pending ++ inner ++ definitionsFor w message.channelId ++ [.message message] ∧
      Leaves w (w.addMessage options message).2 ∧
      (closed ≠ [] → w.chunkBuilder.isSome = true) ∧
      Closes options closed inner' (counted message w).statistics
        (w.addMessage options message).2.statistics := by
  have hcounted : Laid options B (counted message w) flushed pending inner none :=
    h.congr rfl rfl rfl rfl rfl
  have hleaves : Leaves w (counted message w) := ⟨rfl, rfl, rfl, rfl, rfl, rfl, rfl, rfl⟩
  obtain ⟨pending₁, inner₁, waiting, hlaid₁, hwaiting, hcontents₁⟩ :=
    hcounted.needChannel ⟨hr.schemas, hr.channels⟩ hok
  obtain ⟨pending₂, inner₂, hlaid₂, hcontents₂⟩ := (hlaid₁.putMessage message hwaiting).laid
  have hleaves₂ := (hleaves.trans (leaves_needChannel hok)).trans (leaves_putMessage message w')
  have hstatistics := (statistics_putMessage message w').trans (statistics_needChannel hok)
  rw [hcontents₁] at hcontents₂
  rw [addMessage_eq_ok hok, ← hstatistics]
  split
  · obtain ⟨closed, inner₃, hlaid₃, hcontents₃, hpending, hcloses⟩ := hlaid₂.closes
    refine ⟨closed, pending₂, inner₃, hlaid₃, ?_, hleaves₂.trans (leaves_finalizeChunk _),
      fun hne => hleaves₂.chunks.symm.trans (hpending hne).2, hcloses⟩
    by_cases hnil : closed = []
    · subst hnil
      rw [contentsOf_nil, List.nil_append] at hcontents₃ ⊢
      rw [hcontents₃]
      exact hcontents₂
    · rw [(hpending hnil).1, contentsOf_nil, List.nil_append] at hcontents₂ ⊢
      rw [hcontents₃]
      exact hcontents₂
  · refine ⟨[], pending₂, inner₂, ?_, hcontents₂, hleaves₂, fun hne => absurd rfl hne, .nothing⟩
    rw [List.append_nil]
    exact hlaid₂

/-! ## Attachments and metadata -/

theorem filterMap_placed_none {α β : Type} {f : Place → Option α} {kind : TypedMcapRecord → Option β}
    (hf : ∀ p, kind p.item.record = none → f p = none) {pos : Nat}
    (h : ∀ i ∈ l, kind i.record = none) : (placed pos l).filterMap f = [] :=
  List.filterMap_eq_nil_iff.mpr fun p hp =>
    hf p (forall_placed (P := fun i => kind i.record = none) h p hp)

theorem attachmentIndexOf_eq_none {p : Place} (h : p.item.record.attachment? = none) :
    attachmentIndexOf p = none := by
  unfold attachmentIndexOf
  rw [h]
  rfl

theorem metadataIndexOf_eq_none {p : Place} (h : p.item.record.metadata? = none) :
    metadataIndexOf p = none := by
  unfold metadataIndexOf
  rw [h]
  rfl

theorem indices_append {α β : Type} {f : Place → Option α} {kind : TypedMcapRecord → Option β}
    (hf : ∀ p, kind p.item.record = none → f p = none) {indices base : Option (List α)}
    (h : indices = base.map fun x => x ++ (placed B.front.length flushed).filterMap f)
    (hl : ∀ i ∈ l, kind i.record = none) :
    indices = base.map fun x => x ++ (placed B.front.length (flushed ++ l)).filterMap f := by
  rw [h, placed_behind, List.filterMap_append, filterMap_placed_none hf hl, List.append_nil]

theorem Marked.append (h : Marked B w flushed)
    (hl : ∀ i ∈ l, i.record.attachment? = none ∧ i.record.metadata? = none)
    (hattachments : w'.attachmentIndices = w.attachmentIndices)
    (hmetadata : w'.metadataIndices = w.metadataIndices) : Marked B w' (flushed ++ l) where
  attachmentIndices := hattachments.trans
    (indices_append (fun _ => attachmentIndexOf_eq_none) h.attachmentIndices fun i hi => (hl i hi).1)
  metadataIndices := hmetadata.trans
    (indices_append (fun _ => metadataIndexOf_eq_none) h.metadataIndices fun i hi => (hl i hi).2)

theorem Tape.pending_eq_nil (h : Tape B w flushed pending) (hbuffer : w.recordWriter.buffer = []) :
    pending = [] := by
  have hbytes := h.buffer
  rw [hbuffer] at hbytes
  cases pending with
  | nil => rfl
  | cons i pending =>
    rw [Item.allBytes_cons] at hbytes
    cases hbytes

theorem Laid.pending_plain (h : Laid options B w flushed pending inner waiting) :
    ∀ i ∈ pending, ∃ r, r.Plain ∧ i = .plain r := by
  intro i hi
  obtain ⟨r, hr, rfl⟩ := h.content i hi
  exact ⟨r, hr.plain, rfl⟩

/-- **A record that is written out at once**, with those that wait. -/
theorem Laid.putOut (h : Laid options B w flushed pending inner waiting) (hr : r.Plain)
    (hsized : b.Sized) (hbuffer : b.buffer = w.recordWriter.buffer ++ r.bytes)
    (hw' : w'.writable = w.writable ∧ w'.recordWriter = b ∧ w'.dataSectionCrc = w.dataSectionCrc ∧
      w'.chunkBuilder = w.chunkBuilder ∧ w'.chunkIndices = w.chunkIndices) :
    Laid options B w'.flushData (flushed ++ (pending ++ [.plain r])) [] inner waiting where
  tape := (((h.tape.write (i := .plain r) hsized hbuffer)).congr hw'.1 hw'.2.1
    hw'.2.2.1).flushData
  chunked := h.chunked.append (fun i hi => by
    rcases List.mem_append.mp hi with hi | hi
    · exact h.pending_plain i hi
    · exact ⟨r, hr, List.mem_singleton.mp hi⟩) hw'.2.2.2.2
  opened c hc := ⟨(h.opened c (hw'.2.2.2.1 ▸ hc)).1, rfl⟩
  closed hc := h.closed (hw'.2.2.2.1 ▸ hc)
  content _ hi := absurd hi List.not_mem_nil

theorem Laid.addAttachment (h : Laid options B w flushed pending inner none) (a : Attachment) :
    Laid options B (w.addAttachment a) (flushed ++ (pending ++ [.plain (.attachment a)])) [] inner
      none := by
  obtain ⟨hsized, hbuffer, -⟩ := writes_attachment a w.recordWriter h.tape.sized
  exact h.putOut (r := .attachment a) trivial hsized hbuffer ⟨rfl, rfl, rfl, rfl, rfl⟩

theorem Laid.addMetadata (h : Laid options B w flushed pending inner none) (m : Metadata) :
    Laid options B (w.addMetadata m) (flushed ++ (pending ++ [.plain (.metadata m)])) [] inner
      none := by
  obtain ⟨hsized, hbuffer, -⟩ := writes_metadata m w.recordWriter h.tape.sized
  exact h.putOut (r := .metadata m) trivial hsized hbuffer ⟨rfl, rfl, rfl, rfl, rfl⟩

/-- **An index of a record that is put out** is right, if nothing waited. -/
theorem Laid.indices_put (h : Laid options B w flushed pending inner none) {α : Type}
    {f : Place → Option α} {indices base : Option (List α)} {x : α}
    (hindices : indices = base.map fun l => l ++ (placed B.front.length flushed).filterMap f)
    (hempty : indices ≠ none → w.recordWriter.buffer = [])
    (hx : f ⟨w.position, r.bytes.length, .plain r⟩ = some x) :
    indices.map (· ++ [x]) = base.map fun l => l ++
      (placed B.front.length (flushed ++ (pending ++ [.plain r]))).filterMap f := by
  rw [h.tape.position, ← List.length_append] at hx
  rw [hindices, Option.map_map]
  cases base with
  | none => rfl
  | some l =>
    obtain rfl := h.tape.pending_eq_nil (hempty (by rw [hindices]; exact Option.some_ne_none _))
    rw [List.nil_append, placed_behind, List.filterMap_append]
    show some (l ++ _ ++ [x]) = some (l ++ (_ ++ List.filterMap f [⟨_, r.bytes.length, .plain r⟩]))
    rw [List.filterMap_cons_some hx, List.append_assoc]
    rfl

theorem Laid.unmarked (h : Laid options B w flushed pending inner none) :
    ∀ i ∈ pending, i.record.attachment? = none ∧ i.record.metadata? = none := by
  intro i hi
  obtain ⟨r, hr, rfl⟩ := h.content i hi
  exact ⟨hr.attachment?, hr.metadata?⟩

theorem Laid.marked_addAttachment (h : Laid options B w flushed pending inner none)
    (hmarked : Marked B w flushed) (a : Attachment)
    (hempty : w.attachmentIndices ≠ none → w.recordWriter.buffer = []) :
    Marked B (w.addAttachment a) (flushed ++ (pending ++ [.plain (.attachment a)])) := by
  obtain ⟨-, -, hlength⟩ := writes_attachment a w.recordWriter h.tape.sized
  refine ⟨h.indices_put hmarked.attachmentIndices hempty (by rw [← hlength]; rfl),
    indices_append (fun _ => metadataIndexOf_eq_none) hmarked.metadataIndices fun i hi => ?_⟩
  rcases List.mem_append.mp hi with hi | hi
  · exact (h.unmarked i hi).2
  · rw [List.mem_singleton.mp hi]
    rfl

theorem Laid.marked_addMetadata (h : Laid options B w flushed pending inner none)
    (hmarked : Marked B w flushed) (m : Metadata)
    (hempty : w.metadataIndices ≠ none → w.recordWriter.buffer = []) :
    Marked B (w.addMetadata m) (flushed ++ (pending ++ [.plain (.metadata m)])) := by
  obtain ⟨-, -, hlength⟩ := writes_metadata m w.recordWriter h.tape.sized
  refine ⟨indices_append (fun _ => attachmentIndexOf_eq_none) hmarked.attachmentIndices fun i hi => ?_,
    h.indices_put hmarked.metadataIndices hempty (by rw [← hlength]; rfl)⟩
  rcases List.mem_append.mp hi with hi | hi
  · exact (h.unmarked i hi).1
  · rw [List.mem_singleton.mp hi]
    rfl

/-! ## Runs -/

theorem registered_registerSchema (h : Registered w) (info : SchemaInfo) :
    Registered (w.registerSchema info).2 where
  schemas := Dict.forall_set h.schemas rfl
  channels := h.channels

theorem registered_registerChannel (h : Registered w) (info : ChannelInfo) :
    Registered (w.registerChannel info).2 where
  schemas := h.schemas
  channels := Dict.forall_set h.channels rfl

theorem Registered.leaves (h : Registered w) (hleaves : Leaves w w') : Registered w' where
  schemas := by rw [hleaves.schemas]; exact h.schemas
  channels := by rw [hleaves.channels]; exact h.channels

/-- **Nothing waits in the record builder** when the position of a record is taken for an index. -/
def Call.Careful (w : McapWriter) : Call → Prop
  | .addAttachment _ => w.attachmentIndices ≠ none → w.recordWriter.buffer = []
  | .addMetadata _ => w.metadataIndices ≠ none → w.recordWriter.buffer = []
  | _ => True

/-- **A call.** -/
theorem Laid.perform (h : Laid options B w flushed pending inner none) (hr : Registered w)
    (call : Call) :
    Registered (call.perform options w) ∧
    ∃ more pending' inner',
      Laid options B (call.perform options w) (flushed ++ more) pending' inner' none ∧
      (Marked B w flushed → call.Careful w → Marked B (call.perform options w) (flushed ++ more)) := by
  cases call with
  | registerSchema info =>
    refine ⟨registered_registerSchema hr info, [], pending, inner, ?_⟩
    rw [List.append_nil]
    exact ⟨h.congr rfl rfl rfl rfl rfl, fun hmarked _ => ⟨hmarked.1, hmarked.2⟩⟩
  | registerChannel info =>
    refine ⟨registered_registerChannel hr info, [], pending, inner, ?_⟩
    rw [List.append_nil]
    exact ⟨h.congr rfl rfl rfl rfl rfl, fun hmarked _ => ⟨hmarked.1, hmarked.2⟩⟩
  | addMessage message =>
    rcases hneed : (counted message w).needChannel message.channelId with e | w'
    · have hrun : Call.perform options w (.addMessage message) = counted message w :=
        congrArg Prod.snd (addMessage_eq_error hneed)
      rw [hrun]
      refine ⟨⟨hr.schemas, hr.channels⟩, [], pending, inner, ?_⟩
      rw [List.append_nil]
      exact ⟨h.congr rfl rfl rfl rfl rfl, fun hmarked _ => ⟨hmarked.1, hmarked.2⟩⟩
    · obtain ⟨closed, pending', inner', hlaid, -, hleaves, -, hcloses⟩ := h.addMessage hr hneed
      exact ⟨hr.leaves hleaves, closed, pending', inner', hlaid, fun hmarked _ =>
        hmarked.append hcloses.unmarked hleaves.attachmentIndices hleaves.metadataIndices⟩
  | addAttachment a =>
    exact ⟨⟨hr.schemas, hr.channels⟩, _, _, _, h.addAttachment a, fun hmarked hcareful =>
      h.marked_addAttachment hmarked a hcareful⟩
  | addMetadata m =>
    exact ⟨⟨hr.schemas, hr.channels⟩, _, _, _, h.addMetadata m, fun hmarked hcareful =>
      h.marked_addMetadata hmarked m hcareful⟩

/-- The calls of a run, each of them careful. -/
def Careful (options : McapWriterOptions) (w : McapWriter) (calls : List Call) : Prop :=
  ∀ before call after, calls = before ++ call :: after →
    call.Careful (w.performAll options before)

/-- **Any calls.** -/
theorem Laid.performAll (calls : List Call) (h : Laid options B w flushed pending inner none)
    (hr : Registered w) :
    Registered (w.performAll options calls) ∧
    ∃ more pending' inner',
      Laid options B (w.performAll options calls) (flushed ++ more) pending' inner' none ∧
      (Marked B w flushed → Careful options w calls →
        Marked B (w.performAll options calls) (flushed ++ more)) := by
  induction calls generalizing w flushed pending inner with
  | nil =>
    refine ⟨hr, [], pending, inner, ?_⟩
    rw [List.append_nil]
    exact ⟨h, fun hmarked _ => hmarked⟩
  | cons call calls ih =>
    obtain ⟨hr', more, pending', inner', h', hmarked'⟩ := h.perform hr call
    obtain ⟨hr'', more', pending'', inner'', h'', hmarked''⟩ := ih h' hr'
    refine ⟨hr'', more ++ more', pending'', inner'', ?_⟩
    rw [← List.append_assoc]
    refine ⟨h'', fun hmarked hcareful => hmarked'' (hmarked' hmarked ?_) ?_⟩
    · exact hcareful [] call calls rfl
    · intro before call' after heq
      exact hcareful (call :: before) call' after (by rw [heq]; rfl)

end

/-! ## The start -/

/-- The magic bytes, and no indexes. -/
def Base.new (options : McapWriterOptions) : Base where
  front := MAGIC
  chunkIndices := if options.useChunkIndex then some [] else none
  attachmentIndices := if options.useAttachmentIndex then some [] else none
  metadataIndices := if options.useMetadataIndex then some [] else none

/-- **A file that has been started.** -/
theorem start_spec (options : McapWriterOptions) (header : Header) :
    ∃ w, (McapWriter.new options).start header = .ok w ∧ Registered w ∧
      Laid options (.new options) w [.plain (.header header)] [] [] none ∧
      Marked (.new options) w [.plain (.header header)] ∧
      w.dataSectionCrc.isSome = true := by
  have hmagic := puts_bytes MAGIC BufferBuilder.new sized_new
  obtain ⟨hsized, hbuffer, -⟩ := writes_header header _ hmagic.1
  have hnone : ∀ {α : Type} (x : Option (List α)), x = x.map fun l => l ++ [] := by
    intro α x
    cases x with
    | none => rfl
    | some l => exact congrArg some (List.append_nil l).symm
  have hregistered : ∀ {α : Type} (P : Nat → α → Prop) (id : Nat) (a : α),
      (∅ : Dict Nat α).get? id = some a → P id a := by
    intro α P id a h
    cases h
  refine ⟨_, rfl, ⟨hregistered _, hregistered _⟩, ?_, ⟨hnone _, hnone _⟩, rfl⟩
  constructor
  · refine ⟨?_, Sized.reset, buffer_reset, ?_⟩
    · show [] ++ (writeHeader header (writeMagic .new)).1.buffer = _
      rw [List.nil_append]
      refine hbuffer.trans ?_
      rw [hmagic.2, Item.allBytes_cons, Item.allBytes_nil, List.append_nil]
      rfl
    · intro crc heq
      cases heq
      rfl
  · refine ⟨fun i hi => ?_, hnone _, fun g hg => absurd hg List.not_mem_nil⟩
    rw [List.mem_singleton.mp hi]
    exact listed_plain trivial
  · intro c hc
    change (if options.useChunks then _ else _) = some c at hc
    split at hc
    · cases hc
      exact ⟨holds_new options, rfl⟩
    · cases hc
  · exact fun _ => rfl
  · exact fun i hi => absurd hi List.not_mem_nil

end Ts
end Mcap

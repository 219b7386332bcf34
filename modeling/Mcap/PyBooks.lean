import Mcap.PyJournal

/-! # Runs of the writer of the Python library

What a writer has been told is the list of its calls.  `Books` says that its definitions and its
statistics are those of the calls, and `Given` that the records in flight are, so that `Shows` is what
a writer keeps from call to call (`Shows.call`), and along a run (`shows_after`).
-/
namespace Mcap
namespace Py

open Written (allBytes placed)

/-! ## What was told -/

namespace Call

def message? : Call → Option Message
  | .addMessage channelId logTime data publishTime sequence =>
      some { channelId, logTime, data, publishTime, sequence }
  | _ => none

def attachment? : Call → Option Attachment
  | .addAttachment createTime logTime name mediaType data =>
      some { createTime, logTime, name, mediaType, data }
  | _ => none

def metadata? : Call → Option Metadata
  | .addMetadata name data => some { name, metadata := data }
  | _ => none

/-- The name, the encoding and the data of a schema. -/
def schema? : Call → Option (String × String × Bytes)
  | .registerSchema name encoding data => some (name, encoding, data)
  | _ => none

/-- The topic, the message encoding, the schema and the metadata of a channel. -/
def channel? : Call → Option (String × String × Nat × Dict String String)
  | .registerChannel topic messageEncoding schemaId metadata =>
      some (topic, messageEncoding, schemaId, metadata)
  | _ => none

end Call

def messagesOf (calls : List Call) : List Message := calls.filterMap Call.message?
def attachmentsOf (calls : List Call) : List Attachment := calls.filterMap Call.attachment?
def metadataOf (calls : List Call) : List Metadata := calls.filterMap Call.metadata?

/-- A schema with its id. -/
def schemaWith (id : Nat) (s : String × String × Bytes) : Schema where
  id := id
  name := s.1
  encoding := s.2.1
  data := s.2.2

/-- A channel with its id. -/
def channelWith (id : Nat) (c : String × String × Nat × Dict String String) : Channel where
  id := id
  topic := c.1
  messageEncoding := c.2.1
  schemaId := c.2.2.1
  metadata := c.2.2.2

/-- The schemas are numbered from 1 on. -/
def schemasOf (calls : List Call) : List Schema :=
  (calls.filterMap Call.schema?).mapIdx fun i s => schemaWith (i + 1) s

/-- The channels are numbered from 1 on. -/
def channelsOf (calls : List Call) : List Channel :=
  (calls.filterMap Call.channel?).mapIdx fun i c => channelWith (i + 1) c

section
variable (calls : List Call) (call : Call)

theorem messagesOf_concat : messagesOf (calls ++ [call]) =
    messagesOf calls ++ call.message?.toList := by
  unfold messagesOf
  rw [List.filterMap_append]
  cases h : call.message? <;> simp [h]

theorem attachmentsOf_concat : attachmentsOf (calls ++ [call]) =
    attachmentsOf calls ++ call.attachment?.toList := by
  unfold attachmentsOf
  rw [List.filterMap_append]
  cases h : call.attachment? <;> simp [h]

theorem metadataOf_concat : metadataOf (calls ++ [call]) =
    metadataOf calls ++ call.metadata?.toList := by
  unfold metadataOf
  rw [List.filterMap_append]
  cases h : call.metadata? <;> simp [h]

theorem schemasOf_concat : schemasOf (calls ++ [call]) = schemasOf calls ++
    (call.schema?.map (schemaWith ((schemasOf calls).length + 1))).toList := by
  unfold schemasOf
  rw [List.filterMap_append, List.length_mapIdx]
  cases h : call.schema? with
  | none => simp [h]
  | some s => simp [h]

theorem channelsOf_concat : channelsOf (calls ++ [call]) = channelsOf calls ++
    (call.channel?.map (channelWith ((channelsOf calls).length + 1))).toList := by
  unfold channelsOf
  rw [List.filterMap_append, List.length_mapIdx]
  cases h : call.channel? with
  | none => simp [h]
  | some c => simp [h]

end

theorem lt_length_of_mem_schemasOf {calls : List Call} {s : Schema} (h : s ∈ schemasOf calls) :
    s.id ≤ (schemasOf calls).length := by
  unfold schemasOf at h ⊢
  obtain ⟨i, hi, rfl⟩ := List.mem_mapIdx.mp h
  rw [List.length_mapIdx]
  exact hi

theorem lt_length_of_mem_channelsOf {calls : List Call} {c : Channel} (h : c ∈ channelsOf calls) :
    c.id ≤ (channelsOf calls).length := by
  unfold channelsOf at h ⊢
  obtain ⟨i, hi, rfl⟩ := List.mem_mapIdx.mp h
  rw [List.length_mapIdx]
  exact hi

/-- The number of messages of a channel, if there are any. -/
def countOf (id : Nat) (messages : List Message) : Option Nat :=
  if messages.countP (fun m => m.channelId = id) = 0 then none
  else some (messages.countP fun m => m.channelId = id)

/-- **What a writer keeps of definitions.** -/
structure BooksOfDefinitions (w : Writer) (ss : List Schema) (cs : List Channel) : Prop where
  schemas : w.schemas.items = ss.map fun s => (s.id, s)
  channels : w.channels.items = cs.map fun c => (c.id, c)
  schemaCount : w.statistics.schemaCount = ss.length
  channelCount : w.statistics.channelCount = cs.length

/-- **What a writer keeps of messages.** -/
structure BooksOfMessages (s : Statistics) (messages : List Message) : Prop where
  messageCount : s.messageCount = messages.length
  startTime : s.messageStartTime = leastTime (messages.map Message.logTime)
  endTime : s.messageEndTime = greatestTime (messages.map Message.logTime)
  counts : ∀ id, s.channelMessageCounts.get? id = countOf id messages

/-- **What a writer keeps of the calls.** -/
structure Books (w : Writer) (calls : List Call) : Prop where
  definitions : BooksOfDefinitions w (schemasOf calls) (channelsOf calls)
  messages : BooksOfMessages w.statistics (messagesOf calls)
  attachmentCount : w.statistics.attachmentCount = (attachmentsOf calls).length
  metadataCount : w.statistics.metadataCount = (metadataOf calls).length

/-- **The records that were given** are those of the calls, kind by kind. -/
structure Given (records : List McapRecord) (calls : List Call) : Prop where
  messages : records.filterMap McapRecord.message? = messagesOf calls
  attachments : records.filterMap McapRecord.attachment? = attachmentsOf calls
  metadata : records.filterMap McapRecord.metadata? = metadataOf calls
  schemas : records.filterMap McapRecord.schema? = schemasOf calls
  channels : records.filterMap McapRecord.channel? = channelsOf calls

/-- **A writer and its calls.** -/
structure Shows (opts : WriterOptions) (D : Decompressors) (w : Writer) (j : Journal)
    (calls : List Call) : Prop where
  laid : Laid opts D w j
  given : Given (j.held D) calls
  books : Books w calls

section
variable {opts : WriterOptions} {C : Compressors} {D : Decompressors} {w w' : Writer}
  {j j' : Journal} {calls : List Call} {name : String} {data : Bytes}

theorem Books.congr (h : Books w calls) (hsame : SameBooks w w') : Books w' calls := by
  obtain ⟨n, hstatistics⟩ := hsame.statistics
  have hdefinitions := h.definitions
  have hmessages := h.messages
  refine ⟨⟨?_, ?_, ?_, ?_⟩, ⟨?_, ?_, ?_, ?_⟩, ?_, ?_⟩
  · rw [hsame.schemas, hdefinitions.schemas]
  · rw [hsame.channels, hdefinitions.channels]
  · rw [hstatistics]
    exact hdefinitions.schemaCount
  · rw [hstatistics]
    exact hdefinitions.channelCount
  · rw [hstatistics]
    exact hmessages.messageCount
  · rw [hstatistics]
    exact hmessages.startTime
  · rw [hstatistics]
    exact hmessages.endTime
  · rw [hstatistics]
    exact hmessages.counts
  · rw [hstatistics]
    exact h.attachmentCount
  · rw [hstatistics]
    exact h.metadataCount

theorem Books.count {call : Call} (h : Books w calls) (hschema : call.schema? = none)
    (hchannel : call.channel? = none) (hmessage : call.message? = none)
    (hschemas : w'.schemas = w.schemas) (hchannels : w'.channels = w.channels)
    (hstatistics : w'.statistics = { w.statistics with
      attachmentCount := w.statistics.attachmentCount + call.attachment?.toList.length
      metadataCount := w.statistics.metadataCount + call.metadata?.toList.length }) :
    Books w' (calls ++ [call]) := by
  have hss : schemasOf (calls ++ [call]) = schemasOf calls := by
    rw [schemasOf_concat, hschema]
    exact List.append_nil _
  have hcs : channelsOf (calls ++ [call]) = channelsOf calls := by
    rw [channelsOf_concat, hchannel]
    exact List.append_nil _
  have hms : messagesOf (calls ++ [call]) = messagesOf calls := by
    rw [messagesOf_concat, hmessage]
    exact List.append_nil _
  refine ⟨⟨?_, ?_, ?_, ?_⟩, ⟨?_, ?_, ?_, ?_⟩, ?_, ?_⟩
  · rw [hss, hschemas, h.definitions.schemas]
  · rw [hcs, hchannels, h.definitions.channels]
  · rw [hss, hstatistics, h.definitions.schemaCount]
  · rw [hcs, hstatistics, h.definitions.channelCount]
  · rw [hms, hstatistics, h.messages.messageCount]
  · rw [hms, hstatistics, h.messages.startTime]
  · rw [hms, hstatistics, h.messages.endTime]
  · intro id
    rw [hms, hstatistics, h.messages.counts]
  · rw [attachmentsOf_concat, List.length_append, hstatistics, h.attachmentCount]
  · rw [metadataOf_concat, List.length_append, hstatistics, h.metadataCount]

theorem BooksOfMessages.count {s : Statistics} {messages : List Message}
    (h : BooksOfMessages s messages) (m : Message) :
    BooksOfMessages (Writer.countMessage s m) (messages ++ [m]) := by
  constructor
  · rw [List.length_append]
    exact congrArg (· + 1) h.messageCount
  · rw [List.map_append, List.map_singleton, leastTime_concat, List.length_map, ← h.messageCount,
      ← h.startTime, Nat.min_comm]
    rfl
  · rw [List.map_append, List.map_singleton, greatestTime_concat, ← h.endTime, Nat.max_comm]
    rfl
  · intro id
    have hcount := h.counts
    unfold countOf at hcount ⊢
    rw [List.countP_append]
    show (s.channelMessageCounts.set m.channelId _).get? id = _
    by_cases hid : id = m.channelId
    · subst hid
      rw [Dict.get?_set_self, hcount, List.countP_singleton, if_pos (decide_eq_true rfl),
        if_neg (Nat.succ_ne_zero _)]
      split
      · rename_i hzero
        rw [hzero]
        rfl
      · rfl
    · have hne : ¬ decide (m.channelId = id) = true := by simpa using Ne.symm hid
      rw [Dict.get?_set_ne hid, hcount, List.countP_singleton, if_neg hne, Nat.add_zero]

/-- The record of a call, behind others. -/
def Call.record (calls : List Call) : Call → McapRecord
  | .registerSchema name encoding data =>
      .schema (schemaWith ((schemasOf calls).length + 1) (name, encoding, data))
  | .registerChannel topic messageEncoding schemaId metadata =>
      .channel (channelWith ((channelsOf calls).length + 1)
        (topic, messageEncoding, schemaId, metadata))
  | .addMessage channelId logTime data publishTime sequence =>
      .message { channelId, logTime, data, publishTime, sequence }
  | .addAttachment createTime logTime name mediaType data =>
      .attachment { createTime, logTime, name, mediaType, data }
  | .addMetadata name data => .metadata { name, metadata := data }

theorem Given.concat {records : List McapRecord} (h : Given records calls) (call : Call) :
    Given (records ++ [call.record calls]) (calls ++ [call]) := by
  constructor
  · rw [List.filterMap_append, h.messages, messagesOf_concat]
    cases call <;> rfl
  · rw [List.filterMap_append, h.attachments, attachmentsOf_concat]
    cases call <;> rfl
  · rw [List.filterMap_append, h.metadata, metadataOf_concat]
    cases call <;> rfl
  · rw [List.filterMap_append, h.schemas, schemasOf_concat]
    cases call <;> rfl
  · rw [List.filterMap_append, h.channels, channelsOf_concat]
    cases call <;> rfl

theorem Given.of_perm {records records' : List McapRecord} (h : Given records calls)
    (hmessages : records'.filterMap McapRecord.message? = records.filterMap McapRecord.message?)
    (hattachments : records'.filterMap McapRecord.attachment? =
      records.filterMap McapRecord.attachment?)
    (hmetadata : records'.filterMap McapRecord.metadata? = records.filterMap McapRecord.metadata?)
    (hschemas : records'.filterMap McapRecord.schema? = records.filterMap McapRecord.schema?)
    (hchannels : records'.filterMap McapRecord.channel? = records.filterMap McapRecord.channel?) :
    Given records' calls :=
  ⟨hmessages.trans h.messages, hattachments.trans h.attachments, hmetadata.trans h.metadata,
    hschemas.trans h.schemas, hchannels.trans h.channels⟩

theorem Given.insert {front back : List McapRecord} {call : Call} (h : Given (front ++ back) calls)
    (hcall : call.attachment? ≠ none ∨ call.metadata? ≠ none) (hback : ∀ r ∈ back, r.InChunk) :
    Given (front ++ call.record calls :: back) (calls ++ [call]) := by
  have hnil : ∀ {α : Type} (f : McapRecord → Option α), (∀ r ∈ back, f r = none) →
      back.filterMap f = [] := fun f hf => List.filterMap_eq_nil_iff.mpr hf
  have hattachments := hnil McapRecord.attachment? fun r hr => (hback r hr).attachment?
  have hmetadata := hnil McapRecord.metadata? fun r hr => (hback r hr).metadata?
  refine (h.concat call).of_perm ?_ ?_ ?_ ?_ ?_
  all_goals
    rw [List.filterMap_append, List.filterMap_append, List.filterMap_append]
    cases call with
    | addAttachment createTime logTime name mediaType data | addMetadata name data =>
      simp [Call.record, List.filterMap_cons, hattachments, hmetadata, McapRecord.message?, McapRecord.attachment?,
        McapRecord.metadata?, McapRecord.schema?, McapRecord.channel?]
    | _ => exact absurd hcall (by simp [Call.attachment?, Call.metadata?])

/-! ## Steps -/

theorem Laid.congr (h : Laid opts D w j) (hstream : w'.stream = w.stream)
    (hbuilder : w'.recordBuilder = w.recordBuilder) (hcrc : w'.dataSectionCrc = w.dataSectionCrc)
    (hchunks : w'.chunkIndices = w.chunkIndices)
    (hcount : w'.statistics.chunkCount = w.statistics.chunkCount)
    (hattachments : w'.attachmentIndexes = w.attachmentIndexes)
    (hmetadata : w'.metadataIndexes = w.metadataIndexes)
    (hchunk : w'.chunkBuilder = w.chunkBuilder) : Laid opts D w' j where
  tape := h.tape.congr hstream (by rw [hbuilder]) hcrc
  indexed := ⟨h.indexed.inData, hchunks.trans h.indexed.chunkIndices, h.indexed.sound,
    h.indexed.messageIndexes, hattachments.trans h.indexed.attachmentIndexes,
    hmetadata.trans h.indexed.metadataIndexes, hcount.trans h.indexed.chunkCount⟩
  pending := h.pending
  chunking := h.chunking.congr hchunk rfl fun _ hpending => hpending

theorem Laid.build (h : Laid opts D w j) (hnone : w.chunkBuilder = none) (record : McapRecord)
    (hin : record.InChunk) (hrun : Writer.build record.write w = .ok ((), w')) :
    ∃ j', Places opts D record w w' j j' := by
  obtain ⟨x, rfl, b, rfl, hb⟩ := build_eq_ok record hrun
  obtain ⟨hchunking, hinner⟩ := h.chunkBuilder_eq_none hnone
  refine ⟨⟨j.flushed, j.pending ++ [x], j.inner⟩, ⟨h.tape.build hb, ?_, ?_, ?_⟩, ?_, ⟨rfl, rfl, _, rfl⟩⟩
  · exact ⟨h.indexed.inData, h.indexed.chunkIndices, h.indexed.sound, h.indexed.messageIndexes,
      h.indexed.attachmentIndexes, h.indexed.metadataIndexes, h.indexed.chunkCount⟩
  · intro y hy
    rcases List.mem_append.mp hy with hy | hy
    · exact h.pending y hy
    · rw [List.mem_singleton.mp hy]
      exact hin
  · exact h.chunking.congr rfl rfl fun hsome => absurd hnone hsome
  · unfold Journal.held
    rw [hinner, List.map_append, List.map_nil, List.append_nil, List.append_nil, List.append_assoc]
    rfl

/-- **A record that is built and flushed, with its index.** -/
theorem Laid.single {flushed inner : List Written} (h : Laid opts D w ⟨flushed, [], inner⟩)
    (record : McapRecord) (hplain : record.Plain)
    (hrun : Writer.build record.write w = .ok ((), w')) {w'' : Writer}
    (hstream : w''.stream = w'.stream) (hbuilder : w''.recordBuilder = w'.recordBuilder)
    (hcrc : w''.dataSectionCrc = w'.dataSectionCrc) (hchunk : w''.chunkBuilder = w'.chunkBuilder)
    (hchunks : w''.chunkIndices = w'.chunkIndices)
    (hcount : w''.statistics.chunkCount = w'.statistics.chunkCount)
    (hattachments : w''.attachmentIndexes = w'.attachmentIndexes ++
      if opts.indexTypes.attachment then
        (attachmentIndexOf ⟨w.stream.length, w'.recordBuilder.count, record⟩).toList
      else [])
    (hmetadata : w''.metadataIndexes = w'.metadataIndexes ++
      if opts.indexTypes.metadata then
        (metadataIndexOf ⟨w.stream.length, w'.recordBuilder.count, record⟩).toList
      else []) :
    ∃ x : Written, x.record = record ∧ Laid opts D (w''.flushed opts) ⟨flushed ++ [x], [], inner⟩ := by
  obtain ⟨x, rfl, hsize, htape, b, rfl⟩ := h.tape.record record hrun
  have hplaced : placed (MAGIC ++ allBytes flushed).length [x] = [⟨w.stream.length, x.size, x.record⟩] := by
    rw [← h.tape.stream]
    rfl
  have hlist : ∀ {α : Type} (f : Place → Option α) (p : Place), [p].filterMap f = (f p).toList := by
    intro α f p
    cases hf : f p <;> simp [hf]
  rw [hsize] at hattachments hmetadata
  refine ⟨x, rfl, ?_, ?_, fun y hy => absurd hy List.not_mem_nil, ?_⟩
  · refine htape.congr ?_ rfl ?_
    · show w''.stream ++ w''.recordBuilder.buffer = _
      rw [hstream, hbuilder]
      rfl
    · show (if opts.enableDataCrcs then zlibCrc32 w''.recordBuilder.buffer w''.dataSectionCrc
        else w''.dataSectionCrc) = _
      rw [hbuilder, hcrc]
      rfl
  · refine h.indexed.append (l := [x]) (fun y hy => ?_) hchunks hcount ?_ ?_
    · rw [List.mem_singleton.mp hy]
      exact hplain
    · rw [hplaced, hlist]
      exact hattachments
    · rw [hplaced, hlist]
      exact hmetadata
  · exact h.chunking.congr hchunk rfl fun _ _ => rfl

theorem fresh_of_items {V : Type} {d : Dict Nat V} {l : List V} {id : V → Nat}
    (hitems : d.items = l.map fun v => (id v, v)) (hle : ∀ v ∈ l, id v ≤ l.length) :
    d.items.length + 1 ∉ d.keys := by
  intro hmem
  unfold Dict.keys at hmem
  rw [hitems, List.map_map, List.length_map] at hmem
  obtain ⟨v, hv, heq⟩ := List.mem_map.mp hmem
  have := hle v hv
  simp only [Function.comp_apply] at heq
  omega

theorem Shows.placed (h : Shows opts D w j calls) (call : Call) {w₁ : Writer}
    (hplaces : Places opts D (call.record calls) w₁ w' j j') (hbooks : Books w₁ (calls ++ [call])) :
    Shows opts D w' j' (calls ++ [call]) where
  laid := hplaces.laid
  given := hplaces.held ▸ h.given.concat call
  books := hbooks.congr hplaces.books

theorem Shows.registerSchema (hinverse : Inverse C D) (havailable : Available opts C)
    (h : Shows opts D w j calls) {encoding : String} {id : Nat}
    (hrun : Writer.registerSchema opts C name encoding data w = .ok (id, w')) :
    ∃ j', Shows opts D w' j' (calls ++ [.registerSchema name encoding data]) := by
  obtain ⟨_, w₀, hget, hrun⟩ := writing_bind hrun
  cases hget
  obtain ⟨_, w₁, hmodify, hrun⟩ := writing_bind hrun
  cases hmodify
  obtain ⟨_, w₂, hplace, hrun⟩ := writing_bind hrun
  cases hrun
  have hschema : ({ id := w.schemas.items.length + 1, data, encoding, name } : Schema) =
      schemaWith ((schemasOf calls).length + 1) (name, encoding, data) := by
    rw [h.books.definitions.schemas, List.length_map]
    rfl
  rw [hschema] at hplace
  have hlaid : Laid opts D { w with
      schemas := w.schemas.set (w.schemas.items.length + 1)
        (schemaWith ((schemasOf calls).length + 1) (name, encoding, data))
      statistics := { w.statistics with schemaCount := w.statistics.schemaCount + 1 } } j :=
    h.laid.congr rfl rfl rfl rfl rfl rfl rfl rfl
  obtain ⟨j', hplaces⟩ := hlaid.place hinverse havailable
    (adds_quiet (.schema _) trivial rfl fun _ => rfl)
    (fun hnone hwrite => hlaid.build hnone (.schema _) trivial hwrite) hplace
  refine ⟨j', h.placed (.registerSchema name encoding data) hplaces ?_⟩
  have hfresh := fresh_of_items h.books.definitions.schemas fun s => lt_length_of_mem_schemasOf
  have hconcat := schemasOf_concat calls (.registerSchema name encoding data)
  refine ⟨⟨?_, ?_, ?_, ?_⟩, ?_, ?_, ?_⟩
  · rw [Dict.items_set_of_not_mem hfresh, hconcat, List.map_append, h.books.definitions.schemas,
      List.length_map]
    rfl
  · simpa [channelsOf_concat, Call.channel?] using h.books.definitions.channels
  · rw [hconcat, List.length_append]
    exact congrArg (· + 1) h.books.definitions.schemaCount
  · simpa [channelsOf_concat, Call.channel?] using h.books.definitions.channelCount
  · simpa [messagesOf_concat, Call.message?] using ⟨h.books.messages.messageCount,
      h.books.messages.startTime, h.books.messages.endTime, h.books.messages.counts⟩
  · simpa [attachmentsOf_concat, Call.attachment?] using h.books.attachmentCount
  · simpa [metadataOf_concat, Call.metadata?] using h.books.metadataCount

theorem Shows.registerChannel (hinverse : Inverse C D) (havailable : Available opts C)
    (h : Shows opts D w j calls) {topic messageEncoding : String} {schemaId : Nat}
    {metadata : Dict String String} {id : Nat}
    (hrun : Writer.registerChannel opts C topic messageEncoding schemaId metadata w = .ok (id, w')) :
    ∃ j', Shows opts D w' j' (calls ++ [.registerChannel topic messageEncoding schemaId metadata]) := by
  obtain ⟨_, w₀, hget, hrun⟩ := writing_bind hrun
  cases hget
  obtain ⟨_, w₁, hmodify, hrun⟩ := writing_bind hrun
  cases hmodify
  obtain ⟨_, w₂, hplace, hrun⟩ := writing_bind hrun
  cases hrun
  have hchannel :
      (⟨w.channels.items.length + 1, topic, messageEncoding, metadata, schemaId⟩ : Channel) =
        channelWith ((channelsOf calls).length + 1) (topic, messageEncoding, schemaId, metadata) := by
    rw [h.books.definitions.channels, List.length_map]
    rfl
  rw [hchannel] at hplace
  have hlaid : Laid opts D { w with
      channels := w.channels.set (w.channels.items.length + 1)
        (channelWith ((channelsOf calls).length + 1) (topic, messageEncoding, schemaId, metadata))
      statistics := { w.statistics with channelCount := w.statistics.channelCount + 1 } } j :=
    h.laid.congr rfl rfl rfl rfl rfl rfl rfl rfl
  obtain ⟨j', hplaces⟩ := hlaid.place hinverse havailable
    (adds_quiet (.channel _) trivial rfl fun _ => rfl)
    (fun hnone hwrite => hlaid.build hnone (.channel _) trivial hwrite) hplace
  refine ⟨j', h.placed (.registerChannel topic messageEncoding schemaId metadata) hplaces ?_⟩
  have hfresh := fresh_of_items h.books.definitions.channels fun c => lt_length_of_mem_channelsOf
  have hconcat := channelsOf_concat calls (.registerChannel topic messageEncoding schemaId metadata)
  refine ⟨⟨?_, ?_, ?_, ?_⟩, ?_, ?_, ?_⟩
  · simpa [schemasOf_concat, Call.schema?] using h.books.definitions.schemas
  · rw [Dict.items_set_of_not_mem hfresh, hconcat, List.map_append, h.books.definitions.channels,
      List.length_map]
    rfl
  · simpa [schemasOf_concat, Call.schema?] using h.books.definitions.schemaCount
  · rw [hconcat, List.length_append]
    exact congrArg (· + 1) h.books.definitions.channelCount
  · simpa [messagesOf_concat, Call.message?] using ⟨h.books.messages.messageCount,
      h.books.messages.startTime, h.books.messages.endTime, h.books.messages.counts⟩
  · simpa [attachmentsOf_concat, Call.attachment?] using h.books.attachmentCount
  · simpa [metadataOf_concat, Call.metadata?] using h.books.metadataCount

theorem Shows.addMessage (hinverse : Inverse C D) (havailable : Available opts C)
    (h : Shows opts D w j calls) {channelId logTime : Nat} {publishTime sequence : Nat}
    (hrun : Writer.addMessage opts C channelId logTime data publishTime sequence w = .ok ((), w')) :
    ∃ j', Shows opts D w' j' (calls ++ [.addMessage channelId logTime data publishTime sequence]) := by
  obtain ⟨m, hm⟩ : ∃ m : Message, { channelId, logTime, data, publishTime, sequence } = m := ⟨_, rfl⟩
  obtain ⟨_, w₀, hmodify, hplace⟩ := writing_bind hrun
  cases hmodify
  rw [hm] at hplace
  have hlaid : Laid opts D { w with statistics := Writer.countMessage w.statistics m } j :=
    h.laid.congr rfl rfl rfl rfl rfl rfl rfl rfl
  obtain ⟨j', hplaces⟩ := hlaid.place hinverse havailable (adds_message m)
    (fun hnone hwrite => by
      obtain ⟨_, w₁, hbuild, hflush⟩ := writing_bind hwrite
      cases hflush
      obtain ⟨j₁, hplaces⟩ := hlaid.build hnone (.message m) trivial hbuild
      obtain ⟨hlaid', hheld⟩ := hplaces.laid.flush
      exact ⟨_, hlaid', hheld.trans hplaces.held,
        ⟨hplaces.books.schemas, hplaces.books.channels, hplaces.books.statistics⟩⟩) hplace
  have hrecord : Call.record calls (.addMessage channelId logTime data publishTime sequence) =
      .message m := congrArg _ hm
  refine ⟨j', h.placed (.addMessage channelId logTime data publishTime sequence)
    (hrecord ▸ hplaces) ?_⟩
  have hmessages : messagesOf (calls ++ [.addMessage channelId logTime data publishTime sequence]) =
      messagesOf calls ++ [m] := by
    rw [messagesOf_concat]
    exact congrArg (fun m => messagesOf calls ++ [m]) hm
  refine ⟨⟨?_, ?_, ?_, ?_⟩, ?_, ?_, ?_⟩
  · simpa [schemasOf_concat, Call.schema?] using h.books.definitions.schemas
  · simpa [channelsOf_concat, Call.channel?] using h.books.definitions.channels
  · simpa [schemasOf_concat, Call.schema?, Writer.countMessage] using
      h.books.definitions.schemaCount
  · simpa [channelsOf_concat, Call.channel?, Writer.countMessage] using
      h.books.definitions.channelCount
  · rw [hmessages]
    exact h.books.messages.count m
  · simpa [attachmentsOf_concat, Call.attachment?, Writer.countMessage] using h.books.attachmentCount
  · simpa [metadataOf_concat, Call.metadata?, Writer.countMessage] using h.books.metadataCount

theorem held_single {flushed inner : List Written} {x : Written} (hplain : x.record.Plain) :
    Journal.held D ⟨flushed ++ [x], [], inner⟩ = contents D (flushed.map Written.record) ++
      x.record :: inner.map Written.record := by
  unfold Journal.held
  rw [List.map_append, contents_append]
  show contents D (flushed.map Written.record) ++ contents D [x.record] ++ [] ++ _ = _
  have hcontents : contents D [x.record] = [x.record] := by
    unfold contents
    rw [List.flatMap_cons, hplain.contentsOf]
    rfl
  rw [hcontents]
  simp

theorem Laid.inner_inChunk (h : Laid opts D w j) : ∀ r ∈ j.inner.map Written.record, r.InChunk := by
  intro r hr
  obtain ⟨x, hx, rfl⟩ := List.mem_map.mp hr
  rcases hbuilder : w.chunkBuilder with _ | c
  · rw [(h.chunkBuilder_eq_none hbuilder).2] at hx
    cases hx
  · exact (h.chunkBuilder_eq_some hbuilder).2.2.inChunk x hx

theorem Shows.single (h : Shows opts D w j calls) {call : Call}
    (hcall : call.attachment? ≠ none ∨ call.metadata? ≠ none) (hplain : (call.record calls).Plain)
    (hlaid : ∃ x : Written, x.record = call.record calls ∧
      Laid opts D w' ⟨j.flushed ++ j.pending ++ [x], [], j.inner⟩)
    (hbooks : Books w' (calls ++ [call])) : ∃ j', Shows opts D w' j' (calls ++ [call]) := by
  obtain ⟨x, hx, hlaid⟩ := hlaid
  refine ⟨_, hlaid, ?_, hbooks⟩
  have hgiven := h.given
  rw [← h.laid.flush.2] at hgiven
  rw [held_single (hx ▸ hplain), hx]
  refine Given.insert ?_ hcall h.laid.inner_inChunk
  unfold Journal.held at hgiven
  rwa [List.map_nil, List.append_nil] at hgiven

theorem Shows.addAttachment (h : Shows opts D w j calls) {createTime logTime : Nat}
    {mediaType : String}
    (hrun : Writer.addAttachment opts createTime logTime name mediaType data w = .ok ((), w')) :
    ∃ j', Shows opts D w' j' (calls ++ [.addAttachment createTime logTime name mediaType data]) := by
  obtain ⟨a, ha⟩ : ∃ a : Attachment, { createTime, logTime, name, mediaType, data } = a := ⟨_, rfl⟩
  obtain ⟨_, w₀, hflush, hrest⟩ := writing_bind hrun
  cases hflush
  obtain ⟨_, w₁, hget, hrest⟩ := writing_bind hrest
  cases hget
  obtain ⟨_, w₂, hmodify, hrest⟩ := writing_bind hrest
  cases hmodify
  rw [ha] at hrest
  obtain ⟨_, w₃, hbuild, hrest⟩ := writing_bind hrest
  obtain ⟨_, w₄, hnote, hlast⟩ := writing_bind hrest
  cases hnote
  cases hlast
  have hrecord : Call.record calls (.addAttachment createTime logTime name mediaType data) =
      .attachment a := congrArg _ ha
  have hlaid : Laid opts D { w.flushed opts with statistics := { w.statistics with
      attachmentCount := w.statistics.attachmentCount + 1 } } ⟨j.flushed ++ j.pending, [], j.inner⟩ :=
    h.laid.flush.1.congr rfl rfl rfl rfl rfl rfl rfl rfl
  have hbuilt := hbuild
  obtain ⟨-, -, b, rfl, -⟩ := build_eq_ok (.attachment a) hbuilt
  refine h.single (.inl (by simp [Call.attachment?])) trivial ?_ ?_
  · rw [hrecord]
    refine hlaid.single (.attachment a) trivial hbuild ?_ ?_ ?_ ?_ ?_ ?_ ?_ ?_
    all_goals
      unfold Writer.noteAttachment
      cases opts.indexTypes.attachment <;> simp [attachmentIndexOf, metadataIndexOf,
        McapRecord.attachment?, McapRecord.metadata?]
  · refine h.books.count rfl rfl rfl ?_ ?_ ?_
    all_goals
      unfold Writer.noteAttachment Writer.flushed
      cases opts.indexTypes.attachment <;> rfl

theorem Shows.addMetadata (h : Shows opts D w j calls) {data : Dict String String}
    (hrun : Writer.addMetadata opts name data w = .ok ((), w')) :
    ∃ j', Shows opts D w' j' (calls ++ [.addMetadata name data]) := by
  obtain ⟨_, w₀, hflush, hrest⟩ := writing_bind hrun
  cases hflush
  obtain ⟨_, w₁, hget, hrest⟩ := writing_bind hrest
  cases hget
  obtain ⟨_, w₂, hmodify, hrest⟩ := writing_bind hrest
  cases hmodify
  obtain ⟨_, w₃, hbuild, hrest⟩ := writing_bind hrest
  obtain ⟨_, w₄, hnote, hlast⟩ := writing_bind hrest
  cases hnote
  cases hlast
  have hlaid : Laid opts D { w.flushed opts with statistics := { w.statistics with
      metadataCount := w.statistics.metadataCount + 1 } } ⟨j.flushed ++ j.pending, [], j.inner⟩ :=
    h.laid.flush.1.congr rfl rfl rfl rfl rfl rfl rfl rfl
  have hbuilt := hbuild
  obtain ⟨-, -, b, rfl, -⟩ := build_eq_ok (.metadata { name, metadata := data }) hbuilt
  refine h.single (.inr (by simp [Call.metadata?])) trivial ?_ ?_
  · refine hlaid.single (.metadata { name, metadata := data }) trivial hbuild
      ?_ ?_ ?_ ?_ ?_ ?_ ?_ ?_
    all_goals
      unfold Writer.noteMetadata
      cases opts.indexTypes.metadata <;> simp [attachmentIndexOf, metadataIndexOf,
        McapRecord.attachment?, McapRecord.metadata?]
  · refine h.books.count rfl rfl rfl ?_ ?_ ?_
    all_goals
      unfold Writer.noteMetadata Writer.flushed
      cases opts.indexTypes.metadata <;> rfl

/-- **What a call keeps.** -/
theorem Shows.call (hinverse : Inverse C D) (havailable : Available opts C)
    (h : Shows opts D w j calls) {call : Call} (hrun : call.apply opts C w = .ok ((), w')) :
    ∃ j', Shows opts D w' j' (calls ++ [call]) := by
  cases call with
  | registerSchema name encoding data =>
    obtain ⟨id, w₁, hregister, hlast⟩ := writing_bind hrun
    cases hlast
    exact h.registerSchema hinverse havailable hregister
  | registerChannel topic messageEncoding schemaId metadata =>
    obtain ⟨id, w₁, hregister, hlast⟩ := writing_bind hrun
    cases hlast
    exact h.registerChannel hinverse havailable hregister
  | addMessage channelId logTime data publishTime sequence =>
    exact h.addMessage hinverse havailable hrun
  | addAttachment createTime logTime name mediaType data => exact h.addAttachment hrun
  | addMetadata name data => exact h.addMetadata hrun

/-- **What calls keep**, one after the other. -/
theorem Shows.run (hinverse : Inverse C D) (havailable : Available opts C)
    (h : Shows opts D w j calls) {more : List Call}
    (hrun : (more.forM (Call.apply opts C) : Writing Unit) w = .ok ((), w')) :
    ∃ j', Shows opts D w' j' (calls ++ more) := by
  induction more generalizing w j calls with
  | nil =>
    cases hrun
    exact ⟨j, by rwa [List.append_nil]⟩
  | cons call more ih =>
    change (call.apply opts C >>= fun _ => more.forM (Call.apply opts C)) w = _ at hrun
    obtain ⟨_, w₁, hcall, hmore⟩ := writing_bind hrun
    obtain ⟨j₁, h₁⟩ := h.call hinverse havailable hcall
    obtain ⟨j', h'⟩ := ih h₁ hmore
    exact ⟨j', by rwa [List.append_assoc] at h'⟩

theorem new_eq_ok (hnew : Writer.new opts C = .ok w) : Available opts C ∧ w =
    { stream := []
      recordBuilder := .new
      attachmentIndexes := []
      metadataIndexes := []
      channels := ∅
      chunkBuilder := if opts.useChunking then some .new else none
      chunkIndices := []
      schemas := ∅
      statistics := ⟨0, 0, ∅, 0, 0, 0, 0, 0, 0⟩
      dataSectionCrc := 0 } := by
  unfold Writer.new at hnew
  unfold Available
  cases hcompression : opts.compression with
  | none =>
    rw [hcompression] at hnew
    cases hnew
    exact ⟨⟨by rintro ⟨⟩, by rintro ⟨⟩⟩, rfl⟩
  | lz4 =>
    rw [hcompression] at hnew
    dsimp only at hnew
    split at hnew
    · cases hnew
    · rename_i hnone
      cases hnew
      exact ⟨⟨fun _ h => hnone (by rw [h]; rfl), by rintro ⟨⟩⟩, rfl⟩
  | zstd =>
    rw [hcompression] at hnew
    dsimp only at hnew
    split at hnew
    · cases hnew
    · rename_i hnone
      cases hnew
      exact ⟨⟨by rintro ⟨⟩, fun _ h => hnone (by rw [h]; rfl)⟩, rfl⟩

/-- **A writer behind `start`.** -/
theorem shows_start {profile library : String} {w₀ : Writer} (hnew : Writer.new opts C = .ok w₀)
    (hrun : Writer.start opts profile library w₀ = .ok ((), w)) : ∃ j, Shows opts D w j [] := by
  obtain ⟨-, rfl⟩ := new_eq_ok hnew
  obtain ⟨_, w₁, hmagic, hrest⟩ := writing_bind hrun
  have hempty : ∀ {α : Type} (c : Bool), ([] : List α) = if c then [] else [] := fun c => by
    cases c <;> rfl
  have hlaid : Laid opts D w₁ ⟨[], [], []⟩ := by
    cases hmagic
    refine ⟨⟨rfl, rfl, fun henabled => ?_, fun hdisabled => ?_⟩,
      ⟨fun x hx => absurd hx List.not_mem_nil, rfl, fun g hg => absurd hg List.not_mem_nil, rfl,
        hempty _, hempty _, rfl⟩, fun x hx => absurd hx List.not_mem_nil, ?_⟩
    · show (if opts.enableDataCrcs then zlibCrc32 MAGIC 0 else 0) = crc32 ([] ++ MAGIC)
      rw [if_pos henabled]
      rfl
    · show (if opts.enableDataCrcs then zlibCrc32 MAGIC 0 else 0) = 0
      rw [hdisabled]
      rfl
    · unfold Chunking
      cases hchunking : opts.useChunking with
      | true => exact ⟨rfl, rfl, holds_new⟩
      | false => exact ⟨rfl, rfl⟩
  cases hmagic
  obtain ⟨_, w₂, hbuild, hlast⟩ := writing_bind hrest
  cases hlast
  have hbuilt := hbuild
  obtain ⟨-, -, b, rfl, -⟩ := build_eq_ok (.header ⟨profile, library⟩) hbuilt
  obtain ⟨x, hx, hlaid'⟩ := hlaid.single (.header ⟨profile, library⟩) trivial hbuild rfl rfl rfl rfl
    rfl rfl (by cases opts.indexTypes.attachment <;> rfl)
    (by cases opts.indexTypes.metadata <;> rfl)
  refine ⟨_, hlaid', ?_, ⟨⟨rfl, rfl, rfl, rfl⟩, ⟨rfl, rfl, rfl, fun _ => rfl⟩, rfl, rfl⟩⟩
  rw [held_single (by rw [hx]; trivial), hx]
  exact ⟨rfl, rfl, rfl, rfl, rfl⟩

/-- **A writer behind its calls.** -/
theorem shows_after (hinverse : Inverse C D) {profile library : String}
    (hrun : Writer.after opts C profile library calls = .ok w) :
    Available opts C ∧ ∃ j, Shows opts D w j calls := by
  have hrun' : Writer.after opts C profile library calls =
      (Writer.new opts C).bind fun w => (Writer.start opts profile library w).bind fun x =>
        ((calls.forM (Call.apply opts C) : Writing Unit) x.2).bind fun y => .ok y.2 := rfl
  rw [hrun'] at hrun
  obtain ⟨w₀, hnew, hrun⟩ := Mcap.bind_eq_ok hrun
  obtain ⟨⟨⟨⟩, w₁⟩, hstart, hrun⟩ := Mcap.bind_eq_ok hrun
  obtain ⟨⟨⟨⟩, w₂⟩, hcalls, hrun⟩ := Mcap.bind_eq_ok hrun
  cases hrun
  obtain ⟨havailable, -⟩ := new_eq_ok hnew
  obtain ⟨j, hj⟩ := shows_start (D := D) hnew hstart
  exact ⟨havailable, hj.run hinverse havailable hcalls⟩

end

end Py
end Mcap

import Mcap.Registry

/-! # Runs of the writer

`Op` is a call of the writer's interface before `finish`, and `Reaches` says which states
a writer can be in: after `with_options`, any calls and any number of calls of `finish`,
as long as none panics.  The stream may fail at any time.
-/
namespace Mcap

/-- A call on a writer. -/
inductive Op
  | addSchema (name encoding : String) (data : Bytes)
  | addChannel (schemaId : UInt16) (topic messageEncoding : String)
      (metadata : BTreeMap String String)
  | write (message : Message)
  | writeToKnownChannel (header : MessageHeader) (data : Bytes)
  | writePrivateRecord (opcode : UInt8) (data : Bytes) (includeInChunks : Bool)
  | startAttachment (attachmentLength : UInt64) (header : AttachmentHeader)
  | putAttachmentBytes (bytes : Bytes)
  | finishAttachment
  | attach (attachment : Attachment)
  | writeMetadata (metadata : Metadata)
  | flush

/-- The value a call returns. -/
inductive Reply
  | done
  | id (id : UInt16)
deriving DecidableEq

/-- A call that returns nothing. -/
def Reply.ofUnit {σ ε : Type} (x : Exec σ ε Unit) : Exec σ ε Reply := do
  x
  pure .done

/-- A call that returns an id. -/
def Reply.ofId {σ ε : Type} (x : Exec σ ε UInt16) : Exec σ ε Reply := do
  let id ← x
  pure (.id id)

namespace Op
variable {σ W : Type} [Encoders σ] [Write W] [Seek W] [Flush W]

/-- The method a call names. -/
def run : Op → Exec (Writer σ W) McapError Reply
  | addSchema name encoding data => Reply.ofId (Writer.addSchema name encoding data)
  | addChannel schemaId topic messageEncoding metadata =>
      Reply.ofId (Writer.addChannel schemaId topic messageEncoding metadata)
  | write message => Reply.ofUnit (Writer.write message)
  | writeToKnownChannel header data => Reply.ofUnit (Writer.writeToKnownChannel header data)
  | writePrivateRecord opcode data includeInChunks =>
      Reply.ofUnit (Writer.writePrivateRecord opcode data includeInChunks)
  | startAttachment attachmentLength header =>
      Reply.ofUnit (Writer.startAttachment attachmentLength header)
  | putAttachmentBytes bytes => Reply.ofUnit (Writer.putAttachmentBytes bytes)
  | finishAttachment => Reply.ofUnit Writer.finishAttachment
  | attach attachment => Reply.ofUnit (Writer.attach attachment)
  | writeMetadata metadata => Reply.ofUnit (Writer.writeMetadata metadata)
  | flush => Reply.ofUnit Writer.flush

/-- Calls one after the other, as long as none panics: their results and the writer in
the end. -/
def runAll : List Op → Writer σ W → List (Res McapError Reply) × Writer σ W
  | [], w => ([], w)
  | op :: ops, w =>
      match op.run w with
      | (.panic, w) => ([.panic], w)
      | (r, w) => ((r :: (runAll ops w).1), (runAll ops w).2)

end Op

/-- **The states a writer can be in.** -/
inductive Writer.Reaches {σ : Type} [Encoders σ] : Writer σ Stream → Prop
  | start {stream : Stream} {options : WriteOptions} {w : Writer σ Stream} :
      Writer.withOptions stream options = .ok w → Reaches w
  | call {w w' : Writer σ Stream} {r : Res McapError Reply} (op : Op) : Reaches w →
      op.run w = (r, w') → r ≠ .panic → Reaches w'
  | finish {w w' : Writer σ Stream} {r : Res McapError Summary} (order : HashOrder) : Reaches w →
      Writer.finish order w = (r, w') → r ≠ .panic → Reaches w'

namespace Writer
variable {σ : Type} {α β : Type} {w₀ w : Writer σ Stream}

/-- **What every call keeps**: the writer is sound, and nothing that was registered in
`w₀` is lost. -/
structure Good (w₀ w : Writer σ Stream) : Prop where
  sound : w.Sound
  grows : Extends w₀ w

theorem Good.of_registry {w' : Writer σ Stream} (h : Good w₀ w) (hr : w'.registry = w.registry)
    (hp : w'.Placed) : Good w₀ w' :=
  ⟨h.sound.of_registry hr hp, h.grows.trans (.of_registry hr)⟩

theorem Good.placed (h : Good w₀ w) : w.Placed := h.sound.placed

/-- **An invariant of the registries**, which holds whatever else of a writer changes, as long as
an open chunk is placed. -/
structure Steady (I : Writer σ Stream → Prop) : Prop where
  placed : ∀ {w : Writer σ Stream}, I w → w.Placed
  of_registry : ∀ {w w' : Writer σ Stream}, I w → w'.registry = w.registry → w'.Placed → I w'

theorem Steady.of_counters {I : Writer σ Stream → Prop} (hI : Steady I) {w' : Writer σ Stream}
    (h : I w) (hr : w'.registry = w.registry) (hw : w'.writer = w.writer) : I w' :=
  hI.of_registry h hr fun c hc => hI.placed h c (hw.symm.trans hc)

theorem steady_good : Steady (Good w₀) := ⟨Good.placed, Good.of_registry⟩

variable [Encoders σ] {I : Writer σ Stream → Prop} {x : Res McapError α × Writer σ Stream}

/-! ## Calls below the registries -/

omit [Encoders σ] in
theorem Writes.sound (h : Writes w x) (hs : w.Sound) :
    x.2.Sound :=
  hs.of_registry (registry_of_core h.core) h.placed

omit [Encoders σ] in
theorem Steady.of_writes (hI : Steady I) (hs : I w) (h : Writes w x) : I x.2 :=
  hI.of_registry hs (registry_of_core h.core) h.placed

theorem steady_writeDefinition (hI : Steady I) {r : Record} (hr : r.written ≠ none) :
    Exec.Preserves I (writeDefinition r) := by
  intro w hs
  by_cases hu : w.Usable
  · exact hI.of_writes hs (writeDefinition_writes hr hu (hI.placed hs))
  · rw [writeDefinition_panic hu]
    exact hs

theorem steady_startChunk (hI : Steady I) : Exec.Preserves I startChunk := by
  intro w hs
  by_cases hu : w.Usable
  · by_cases huse : w.options.useChunks = true
    · exact hI.of_writes hs (startChunk_writes hu (hI.placed hs) huse).1
    · -- the assertion on the options fails before anything is done
      have hfalse : w.options.useChunks = false := by simpa using huse
      rw [startChunk, Exec.bind_ok (assertNotFinished_run hu.2), Exec.bind_ok (Exec.get_run w)]
      rcases w.writer with _ | (c | c | a | s) <;> simp only [hfalse] <;> exact hs
  · rw [startChunk_panic hu]
    exact hs

theorem steady_finishChunk (hI : Steady I) : Exec.Preserves I finishChunk := by
  intro w hs
  by_cases hu : w.Usable
  · exact hI.of_writes hs (finishChunk_writes hu (hI.placed hs)).1
  · rw [finishChunk_panic hu]
    exact hs

omit [Encoders σ] in
theorem steady_onChunk (hI : Steady I) {f : ChunkWriter σ Stream →
    Res (McapError × ChunkWriter σ Stream) (ChunkWriter σ Stream)} (hf : ChunkStep f) :
    Exec.Preserves I (onChunk f) := by
  intro w hs
  rw [onChunk]
  split
  · rename_i c hc
    have hplaced : ∀ c', (f c = .ok c' ∨ ∃ e, f c = .err (e, c')) →
        Placed { w with writer := some (.chunk c') } := by
      intro c' hc' c'' h
      cases h
      exact hf.placed c c' (hI.placed hs c hc) hc'
    split
    · exact hI.of_registry hs rfl (hplaced _ (.inl ‹_›))
    · exact hI.of_registry hs rfl (hplaced _ (.inr ⟨_, ‹_›⟩))
    · exact hs
  · exact hs

omit [Encoders σ] in
theorem steady_onRaw (hI : Steady I) {f : CountingCrcWriter Stream →
    Res (McapError × CountingCrcWriter Stream) (α × CountingCrcWriter Stream)} :
    Exec.Preserves I (onRaw f) := by
  intro w hs
  rw [onRaw]
  split
  · split
    · exact hI.of_registry hs rfl (.of_not_chunk fun c h => by cases h)
    · exact hI.of_registry hs rfl (.of_not_chunk fun c h => by cases h)
    · exact hs
  · exact hs

theorem steady_chunkRecord (hI : Steady I) {r : Record} (hr : r.written ≠ none) :
    Exec.Preserves I (chunkRecord r) :=
  (steady_startChunk hI).bind fun _ => steady_onChunk hI (chunkStep_writeRecord hr)

theorem steady_topRecord (hI : Steady I) (r : Record) : Exec.Preserves I (topRecord r) :=
  (steady_finishChunk hI).bind fun _ => steady_onRaw hI

theorem steady_writeMessage (hI : Steady I) (header : MessageHeader) (data : Bytes) :
    Exec.Preserves I (rollChunk >>= fun _ => writeMessageRecord header data) := by
  intro w hs
  by_cases hu : w.Usable
  · exact hI.of_writes hs (rollChunk_writeMessage_writes hu (hI.placed hs))
  · rw [rollChunk_writeMessage_panic hu]
    exact hs

/-! ## Registering calls -/

theorem written_schema (content : SchemaContent) (id : UInt16) :
    (content.record id).written ≠ none := by
  simp [SchemaContent.record, Record.written]

theorem written_channel (content : ChannelContent) (id : UInt16) :
    (content.record id).written ≠ none := by
  simp [ChannelContent.record, Record.written]

theorem preserves_addSchema (name encoding : String) (data : Bytes) :
    Exec.Preserves (Good w₀) (addSchema name encoding data) := by
  intro w hs
  refine addSchema_cases hs.sound (fun _ _ => hs) (fun _ _ => ?_)
    fun canonicalSchemas id _ _ hid hent hs' => ?_
  · exact ⟨⟨hs.placed, hs.sound.schemas.at_candidate, hs.sound.channels⟩,
      ⟨hs.grows.schemas, hs.grows.schemaIds, hs.grows.channels, hs.grows.channelIds⟩⟩
  · exact (steady_writeDefinition steady_good (written_schema _ _)).bind (fun _ => .pure _) _
      ⟨hs', hs.grows.trans (extends_withSchema hent hid)⟩

theorem preserves_addChannel (schemaId : UInt16) (topic messageEncoding : String)
    (metadata : BTreeMap String String) :
    Exec.Preserves (Good w₀) (addChannel schemaId topic messageEncoding metadata) := by
  intro w hs
  refine addChannel_cases hs.sound (fun _ _ => hs) (fun _ _ => hs) (fun _ _ => ?_)
    fun canonicalChannels id _ _ _ hid hent hs' => ?_
  · exact ⟨⟨hs.placed, hs.sound.schemas, hs.sound.channels.at_candidate⟩,
      ⟨hs.grows.schemas, hs.grows.schemaIds, hs.grows.channels, hs.grows.channelIds⟩⟩
  · exact (steady_writeDefinition steady_good (written_channel _ _)).bind (fun _ => .pure _) _
      ⟨hs', hs.grows.trans (extends_withChannel hent hid)⟩

theorem preserves_registerSchema (schema : Schema) :
    Exec.Preserves (Good w₀) (registerSchema schema) := by
  intro w hs
  refine registerSchema_cases hs.sound (fun _ hid hent hs' => ?_) (fun _ hid _ hs' => ?_) hs
    (fun _ _ _ _ => hs)
  · exact steady_writeDefinition steady_good (written_schema _ _) _
      ⟨hs', hs.grows.trans (extends_withSchema hent hid)⟩
  · exact steady_writeDefinition steady_good (written_schema _ _) _
      ⟨hs', hs.grows.trans ⟨fun h => h, getElem?_insert_new hid, fun h => h, fun h => h⟩⟩

theorem preserves_registerChannel (channel : Channel) :
    Exec.Preserves (Good w₀) (registerChannel channel) := by
  intro w hs
  refine registerChannel_cases hs.sound (fun _ hid hent hs' => ?_) (fun _ hid _ hs' => ?_) hs
    (fun _ _ _ _ => hs)
  · exact steady_writeDefinition steady_good (written_channel _ _) _
      ⟨hs', hs.grows.trans (extends_withChannel hent hid)⟩
  · exact steady_writeDefinition steady_good (written_channel _ _) _
      ⟨hs', hs.grows.trans ⟨fun h => h, fun h => h, fun h => h, getElem?_insert_new hid⟩⟩

theorem steady_writeToKnownChannel (hI : Steady I) (header : MessageHeader) (data : Bytes) :
    Exec.Preserves I (writeToKnownChannel header data) := by
  intro w hs
  by_cases hk : w.allChannelIds.contains header.channelId = true
  · rw [writeToKnownChannel_run hk]
    exact steady_writeMessage hI header data _ (hI.of_counters hs rfl rfl)
  · have hfalse : w.allChannelIds.contains header.channelId = false := Bool.eq_false_iff.mpr hk
    rw [writeToKnownChannel, Exec.bind_ok (Exec.get_run w), if_pos hfalse]
    exact hs

theorem preserves_write (message : Message) :
    Exec.Preserves (Good w₀) (write message) := by
  rw [write]
  cases message.channel.schema with
  | none =>
    exact (Exec.Preserves.pure ()).bind fun _ => (preserves_registerChannel _).bind fun _ =>
      steady_writeToKnownChannel steady_good _ _
  | some schema =>
    exact (preserves_registerSchema schema).bind fun _ => (preserves_registerChannel _).bind
      fun _ => steady_writeToKnownChannel steady_good _ _

/-! ## The other calls -/

theorem steady_writePrivateRecord (hI : Steady I) (opcode : UInt8) (data : Bytes)
    (includeInChunks : Bool) : Exec.Preserves I (writePrivateRecord opcode data includeInChunks) := by
  intro w hs
  rw [writePrivateRecord]
  split
  · exact hs
  · rw [Exec.bind_ok (Exec.get_run w)]
    split
    · exact steady_chunkRecord hI (by simp [Record.written]) w hs
    · exact steady_topRecord hI _ w hs

theorem steady_startAttachment (hI : Steady I) (attachmentLength : UInt64)
    (header : AttachmentHeader) : Exec.Preserves I (startAttachment attachmentLength header) := by
  refine (steady_finishChunk hI).bind fun _ w hs => ?_
  rw [Exec.bind_ok (Exec.get_run w)]
  rcases w.writer with _ | (c | c | a | s)
  case some.raw =>
    simp only
    rcases AttachmentWriter.new c attachmentLength header w.options.calculateAttachmentCrcs with
      a | e | _
    · exact hI.of_registry hs rfl (.of_not_chunk fun c h => by cases h)
    · exact hI.of_registry hs rfl (.of_not_chunk fun c h => by cases h)
    · exact hs
  all_goals exact hs

omit [Encoders σ] in
theorem steady_putAttachmentBytes (hI : Steady I) (bytes : Bytes) :
    Exec.Preserves I (putAttachmentBytes bytes) := by
  intro w hs
  rw [putAttachmentBytes]
  split
  · split
    · exact hI.of_registry hs rfl (.of_not_chunk fun c h => by cases h)
    · exact hI.of_registry hs rfl (.of_not_chunk fun c h => by cases h)
    · exact hs
  · exact hs

omit [Encoders σ] in
theorem steady_finishAttachment (hI : Steady I) : Exec.Preserves I finishAttachment := by
  intro w hs
  rw [finishAttachment]
  split
  · split
    · exact hI.of_registry hs rfl (.of_not_chunk fun c h => by cases h)
    · exact hI.of_registry hs rfl (.of_not_chunk fun c h => by cases h)
    · exact hs
  · exact hs

theorem steady_attach (hI : Steady I) (attachment : Attachment) :
    Exec.Preserves I (attach attachment) :=
  (steady_startAttachment hI _ _).bind fun _ => (steady_putAttachmentBytes hI _).bind fun _ =>
    steady_finishAttachment hI

theorem steady_writeMetadata (hI : Steady I) (metadata : Metadata) :
    Exec.Preserves I (writeMetadata metadata) :=
  (steady_finishChunk hI).bind fun _ => (steady_onRaw hI).bind fun _ =>
    .modify fun _ hs => hI.of_counters hs rfl rfl

theorem steady_flush (hI : Steady I) : Exec.Preserves I flush :=
  (steady_finishChunk hI).bind fun _ => steady_onRaw hI

omit [Encoders σ] in
theorem steady_takeSummary (hI : Steady I) : Exec.Preserves I takeSummary := by
  intro w hs
  rw [takeSummary, Exec.bind_ok (Exec.get_run w)]
  rcases w.summarySchemas with _ | schemas
  · exact hs
  · simp only
    rcases w.summaryChannels schemas with _ | channels
    · exact hs
    · exact hI.of_counters hs rfl rfl

theorem steady_finish (hI : Steady I) (order : HashOrder) :
    Exec.Preserves I (finish order) := by
  intro w hs
  rw [finish, Exec.bind_ok (Exec.get_run w)]
  rcases w.finishedSummary with _ | summary
  swap
  · exact hs
  · refine (steady_finishChunk hI).bind (fun _ => (steady_takeSummary hI).bind fun summary => ?_) w hs
    refine Exec.Preserves.bind (fun _ hs => hI.of_counters hs rfl rfl) fun _ => ?_
    exact (steady_onRaw hI).bind fun _ => (steady_onRaw hI).bind fun _ => .pure _

/-- **Every call keeps the writer sound and its registries growing.** -/
theorem preserves_run (op : Op) : Exec.Preserves (Good w₀) op.run := by
  cases op with
  | addSchema name encoding data => exact (preserves_addSchema _ _ _).bind fun _ => .pure _
  | addChannel schemaId topic messageEncoding metadata =>
    exact (preserves_addChannel _ _ _ _).bind fun _ => .pure _
  | write message => exact (preserves_write _).bind fun _ => .pure _
  | writeToKnownChannel header data =>
    exact (steady_writeToKnownChannel steady_good _ _).bind fun _ => .pure _
  | writePrivateRecord opcode data includeInChunks =>
    exact (steady_writePrivateRecord steady_good _ _ _).bind fun _ => .pure _
  | startAttachment attachmentLength header =>
    exact (steady_startAttachment steady_good _ _).bind fun _ => .pure _
  | putAttachmentBytes bytes => exact (steady_putAttachmentBytes steady_good _).bind fun _ => .pure _
  | finishAttachment => exact (steady_finishAttachment steady_good).bind fun _ => .pure _
  | attach attachment => exact (steady_attach steady_good _).bind fun _ => .pure _
  | writeMetadata metadata => exact (steady_writeMetadata steady_good _).bind fun _ => .pure _
  | flush => exact (steady_flush steady_good).bind fun _ => .pure _

omit [Encoders σ] in
theorem withOptions_eq_ok {stream : Stream} {options : WriteOptions} {w : Writer σ Stream}
    (h : withOptions stream options = .ok w) :
    ∃ c mode, w =
      { writer := some (.raw c), dropped := none, finishedSummary := none, chunkMode := mode,
        options, canonicalChannels := .empty, allChannelIds := ∅, canonicalSchemas := .empty,
        allSchemaIds := ∅, nextSchemaId := 1, nextChannelId := 1, chunkIndexes := [],
        attachmentCount := 0, attachmentIndexes := [], metadataCount := 0,
        metadataIndexes := [], messageBounds := none, channelMessageCounts := ∅ } := by
  obtain ⟨c₁, -, h⟩ := Res.bind_eq_ok.mp h
  obtain ⟨c₂, -, h⟩ := Res.bind_eq_ok.mp h
  obtain ⟨mode, -, h⟩ := Res.bind_eq_ok.mp h
  cases h
  exact ⟨c₂, mode, rfl⟩

end Writer

/-- **Every writer that can be reached is sound.** -/
theorem Writer.Reaches.sound {σ : Type} [Encoders σ] {w : Writer σ Stream} (h : Reaches w) : w.Sound := by
  induction h with
  | start h =>
    obtain ⟨c, mode, rfl⟩ := Writer.withOptions_eq_ok h
    exact ⟨.of_not_chunk (fun c h => by cases h), .empty, .empty⟩
  | call op _ hrun _ ih =>
    have hs := (Writer.preserves_run op _ ⟨ih, .refl _⟩).sound
    rwa [hrun] at hs
  | finish order _ hrun _ ih =>
    have hs := (Writer.steady_finish steady_good order _ ⟨ih, .refl _⟩).sound
    rwa [hrun] at hs

/-! ## Sequences of calls -/

section
variable {σ : Type} [Encoders σ] {w w' : Writer σ Stream}

theorem Op.runAll_cons {op : Op} {ops : List Op} {r : Res McapError Reply}
    (h : op.run w = (r, w')) (hr : r ≠ .panic) :
    Op.runAll (op :: ops) w = (r :: (Op.runAll ops w').1, (Op.runAll ops w').2) := by
  rw [Op.runAll, h]
  cases r with
  | panic => exact absurd rfl hr
  | ok a => rfl
  | err e => rfl

theorem Writer.Reaches.runAll {ops : List Op} (hw : Reaches w) (h : .panic ∉ (Op.runAll ops w).1) :
    Reaches (Op.runAll ops w).2 := by
  induction ops generalizing w with
  | nil => exact hw
  | cons op ops ih =>
    rcases hop : op.run w with ⟨r, w'⟩
    by_cases hpanic : r = .panic
    · subst hpanic
      rw [Op.runAll, hop] at h
      exact absurd List.mem_cons_self h
    · rw [Op.runAll_cons hop hpanic] at h ⊢
      exact ih (.call op hw hop hpanic) fun hm => h (List.mem_cons_of_mem _ hm)

end

end Mcap

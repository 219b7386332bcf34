import Mcap.Ledger

/-! # Whole runs of a writer and their journals

Every call on a writer adds to its journal, as long as it does not register or count
something that it cannot write: `Op.Touches` is what a call must not do while an attachment
is in progress.  `op_advances` says so for a call, and `Runs.advance` for a run: the ledger
of the writer is then that of the records in its journal, and each of them was allowed where
it stands.
-/
namespace Mcap

section
variable {σ : Type} [Encoders σ] {K : Record → Prop} {w w' : Writer σ Stream} {j j' : Journal}
  {o : WriteOptions}

/-- The writer has gone on, and no message has been written. -/
def Onward (K : Record → Prop) (w : Writer σ Stream) (j : Journal) (w' : Writer σ Stream) : Prop :=
  ∃ records j', Advance K w j records w' j' ∧ messagesOf records = []

theorem Quietly.onward (h : Quietly K w j w') : Onward K w j w' := by
  obtain ⟨records, j', hadv, -, hm⟩ := h
  exact ⟨records, j', hadv, hm⟩

theorem Onward.refl (h : Shows w j) (hs : w.Sound) (hp : j.Pending K w.options) :
    Onward K w j w := ⟨[], j, .refl h hs hp, rfl⟩

theorem Journal.open_attachment_lost (j : Journal) : j.Open ∨
    (∃ header length data, j.tail = .attachment header length data) ∨ j.tail = .lost := by
  obtain ⟨es, tail⟩ := j
  cases tail with
  | raw => exact .inl (.inl rfl)
  | chunk records => exact .inl (.inr ⟨records, rfl⟩)
  | attachment header length data => exact .inr (.inl ⟨header, length, data, rfl⟩)
  | lost => exact .inr (.inr rfl)

theorem Extended.onward {r : Record} (h : Extended w j [r] w' j') (hs : w.Sound)
    (hstep : ∀ l : Ledger, l.step r = l) (hallow : ∀ l : Ledger, l.Allows r)
    (hm : messagesOf [r] = []) (hK : K r) : Onward K w j w' :=
  ⟨[r], j', h.advance hs (hstep _) (Ledger.allowsAll_singleton.mpr (hallow _))
    (List.forall_mem_singleton.mpr hK), hm⟩

/-- The messages of a call are written if it succeeds. -/
def posted {α : Type} (res : Res McapError α) (messages : List (MessageHeader × Bytes)) :
    List (MessageHeader × Bytes) :=
  match res with
  | .ok _ => messages
  | _ => []

/-- The writer has gone on and has written `messages`, if it was to. -/
def Posts {α : Type} (K : Record → Prop) (w : Writer σ Stream) (j : Journal)
    (messages : List (MessageHeader × Bytes)) (res : Res McapError α) (w' : Writer σ Stream) : Prop :=
  ∃ records j', Advance K w j records w' j' ∧ messagesOf records = posted res messages

theorem Onward.posts {α : Type} {res : Res McapError α} (h : Onward K w j w') :
    Posts K w j [] res w' := by
  obtain ⟨records, j', hadv, hm⟩ := h
  refine ⟨records, j', hadv, ?_⟩
  cases res <;> exact hm

theorem Onward.posts_err {α : Type} {e : McapError} {messages : List (MessageHeader × Bytes)}
    (h : Onward K w j w') : Posts K w j messages (.err e : Res McapError α) w' := h

/-! ## While an attachment is in progress -/

namespace Writer

variable {header : AttachmentHeader} {length : UInt64} {data : Bytes}

theorem startChunk_refused {es : List Entry} (h : Shows w ⟨es, .attachment header length data⟩) :
    startChunk w = (.err .attachmentNotInProgress, w) := by
  obtain ⟨c, -, -, hw⟩ := h.attachment
  rw [startChunk, Exec.bind_ok (assertNotFinished_run h.notFinished), Exec.bind_ok (Exec.get_run w)]
  simp only [hw]
  rfl

theorem finishChunk_refused {es : List Entry} (h : Shows w ⟨es, .attachment header length data⟩) :
    finishChunk w = (.err .attachmentNotInProgress, w) := by
  obtain ⟨c, -, -, hw⟩ := h.attachment
  rw [finishChunk, Exec.bind_ok (assertNotFinished_run h.notFinished), Exec.bind_ok (Exec.get_run w)]
  simp only [hw]
  rfl

theorem onward_bind {α β : Type} {x : Exec (Writer σ Stream) McapError α}
    {f : α → Exec (Writer σ Stream) McapError β} (hx : Cleanly (fun _ w' => Onward K w j w') (x w))
    (hf : ∀ a w' j', Shows w' j' → w'.Sound → j'.Pending K w'.options → w'.options = w.options →
      Cleanly (fun _ w'' => Onward K w' j' w'') (f a w')) :
    Cleanly (fun _ w' => Onward K w j w') ((x >>= f) w) := by
  refine hx.bind ?_ fun _ _ hq => hq
  rintro a w' ⟨records, j', hadv, hm⟩
  refine (hf a w' j' hadv.shows_ hadv.sound hadv.pending hadv.options).mono ?_
  rintro - w'' ⟨records', j'', hadv', hm'⟩
  exact ⟨records ++ records', j'', hadv.trans hadv', by rw [messagesOf_append, hm, hm']; rfl⟩

/-- **A call that finishes the open chunk first**: it goes on where the writer is open, is
refused while an attachment is in progress, and panics once one was given up. -/
theorem onward_of_finishChunk {α : Type} {f : Unit → Exec (Writer σ Stream) McapError α}
    (h : Shows w j) (hs : w.Sound) (hp : j.Pending K w.options)
    (hf : ∀ w' es, Extended w j [] w' ⟨es, .raw⟩ → w'.Sound →
      Cleanly (fun _ w'' => Onward K w' ⟨es, .raw⟩ w'') (f () w')) :
    Cleanly (fun _ w' => Onward K w j w') ((finishChunk >>= f) w) := by
  rcases j.open_attachment_lost with ho | ⟨header, length, data, htail⟩ | hlost
  · refine Cleanly.bind (.of_okOrIo (finishChunk_shows h ho)
      (Q := fun _ w' => ∃ es, Extended w j [] w' ⟨es, .raw⟩) ?_) ?_ ?_
    · rintro - w' ⟨⟨es, tail⟩, hext, rfl⟩
      exact ⟨es, hext⟩
    · rintro - w' ⟨es, hext⟩
      have hadv := hext.advance (K := K) hs rfl trivial (List.forall_mem_nil _)
      refine (hf w' es hext hadv.sound).mono ?_
      rintro - w'' ⟨records, j'', hadv', hm⟩
      exact ⟨records, j'', hadv.trans hadv', hm⟩
    · rintro e w' ⟨es, hext⟩
      exact ⟨[], _, hext.advance hs rfl trivial (List.forall_mem_nil _), rfl⟩
  · obtain ⟨es, tail⟩ := j
    subst htail
    rw [Exec.bind_err (finishChunk_refused h)]
    exact .inr (.refl h hs hp)
  · rw [Exec.bind_panic (finishChunk_panic (h.not_usable hlost))]
    trivial

theorem chunkRecord_onward {r : Record} (hr : r.written = some r.frame)
    (hstep : ∀ l : Ledger, l.step r = l) (hallow : ∀ l : Ledger, l.Allows r)
    (hm : messagesOf [r] = []) (h : Shows w j) (hs : w.Sound) (hp : j.Pending K w.options) (hK : K r)
    (huse : w.options.useChunks = true) :
    Cleanly (fun _ w' => Onward K w j w') (chunkRecord r w) := by
  have hmsg : ∀ header data, r ≠ .message header data := by
    rintro header data rfl
    cases hm
  rcases j.open_attachment_lost with ho | ⟨header, length, data, htail⟩ | hlost
  · refine .of_okOrIo (chunkRecord_shows hr hmsg h ho huse) ?_
    rintro - w' ⟨j', hext⟩
    exact hext.onward hs hstep hallow hm hK
  · obtain ⟨es, tail⟩ := j
    subst htail
    rw [chunkRecord, Exec.bind_err (startChunk_refused h)]
    exact .inr (.refl h hs hp)
  · rw [chunkRecord_panic (h.not_usable hlost)]
    trivial

theorem topRecord_onward {r : Record} (hr : r.written = some r.frame) (hun : r.Unindexed)
    (hstep : ∀ l : Ledger, l.step r = l) (hallow : ∀ l : Ledger, l.Allows r)
    (hm : messagesOf [r] = []) (h : Shows w j) (hs : w.Sound) (hp : j.Pending K w.options) (hK : K r) :
    Cleanly (fun _ w' => Onward K w j w') (topRecord r w) := by
  rcases j.open_attachment_lost with ho | ⟨header, length, data, htail⟩ | hlost
  · refine .of_okOrIo (topRecord_shows hr hun h ho) ?_
    rintro - w' ⟨j', hext⟩
    exact hext.onward hs hstep hallow hm hK
  · obtain ⟨es, tail⟩ := j
    subst htail
    rw [topRecord, Exec.bind_err (finishChunk_refused h)]
    exact .inr (.refl h hs hp)
  · rw [topRecord_panic (h.not_usable hlost)]
    trivial

theorem writePrivateRecord_onward (h : Shows w j) (hs : w.Sound) (hp : j.Pending K w.options)
    {opcode : UInt8} (hK : 0x80 ≤ opcode → K (.unknown opcode data)) (includeInChunks : Bool) :
    Cleanly (fun _ w' => Onward K w j w') (writePrivateRecord opcode data includeInChunks w) := by
  have hr : (Record.unknown opcode data).written = some (Record.unknown opcode data).frame :=
    congrArg some (Record.written_eq_some rfl)
  rw [writePrivateRecord]
  split
  · exact .inr (.refl h hs hp)
  · rename_i hop
    have hallow : ∀ l : Ledger, l.Allows (.unknown opcode data) := fun _ => UInt8.not_lt.mp hop
    have hK := hK (UInt8.not_lt.mp hop)
    rw [Exec.bind_ok (Exec.get_run w)]
    split
    · rename_i huse
      exact chunkRecord_onward hr (fun _ => rfl) hallow rfl h hs hp hK
        (Bool.and_eq_true_iff.mp huse).1
    · exact topRecord_onward hr trivial (fun _ => rfl) hallow rfl h hs hp hK

theorem flush_onward (h : Shows w j) (hs : w.Sound) (hp : j.Pending K w.options) :
    Cleanly (fun _ w' => Onward K w j w') (flush w) := by
  refine onward_of_finishChunk h hs hp fun w' es hext hs' => ?_
  obtain ⟨c, hc, hholds⟩ := hext.shows_.raw
  have hflush : flushRaw c = .ok ((), c) := by
    obtain ⟨inner, hasher, count⟩ := c
    obtain rfl : inner = Stream.tape (dataBytes w'.options es) := hholds.onTape
    rfl
  simp only [onRaw, hc, hflush]
  have hsame : { w' with writer := some (.raw c) } = w' := by
    rw [← hc]
  rw [hsame]
  exact .refl hext.shows_ hs' (hext.isOpen.free.pending _)

/-! ## Attachments and metadata -/

theorem startAttachment_onward (h : Shows w j) (hs : w.Sound) (hp : j.Pending K w.options)
    (length : UInt64) (hK : header.Keeps K w.options) :
    Cleanly (fun _ w' => Onward K w j w') (startAttachment length header w) := by
  refine onward_of_finishChunk h hs hp fun w' es hext hs' => ?_
  obtain ⟨c, hc, hholds⟩ := hext.shows_.raw
  rw [Exec.bind_ok (Exec.get_run w')]
  simp only [hc, AttachmentWriter.new_holding hholds.onTape]
  refine ⟨[], ⟨es, .attachment header length []⟩, ⟨⟨hext.shows_.notFinished,
    .attachment hholds (Nat.zero_le _), hext.shows_.packed, ?_⟩, rfl, ?_, rfl, trivial, ?_,
    List.forall_mem_nil _, ?_⟩, rfl⟩
  · exact hext.shows_.booked.of_fields rfl rfl rfl rfl rfl rfl
  · simp [Journal.flat]
  · exact hs'.of_registry rfl (.of_not_chunk fun c hne => by cases hne)
  · intro header' length' data' htail
    cases htail
    show header.Keeps K w'.options
    rw [options_of_core hext.core]
    exact hK

theorem putAttachmentBytes_onward (h : Shows w j) (hs : w.Sound) (hp : j.Pending K w.options)
    (bytes : Bytes) :
    Cleanly (fun _ w' => Onward K w j w') (putAttachmentBytes bytes w) := by
  obtain ⟨es, tail⟩ := j
  have hm := h.mode
  generalize hslot : w.writer = slot, hd : w.dropped = dropped at hm
  cases hm with
  | raw hc | chunk hran | lost hc =>
    simp only [putAttachmentBytes, hslot]
    exact .inr (.refl h hs hp)
  | @attachment _ header length data c _ hholds hle =>
    simp only [putAttachmentBytes, hslot]
    by_cases hfit : data.length + bytes.length ≤ length.toNat
    · rw [AttachmentWriter.putBytes_holding hfit]
      refine ⟨[], ⟨es, .attachment header length (data ++ bytes)⟩, ⟨⟨h.notFinished,
        .attachment hholds (by rw [List.length_append]; exact hfit), h.packed, ?_⟩, rfl, ?_,
        rfl, trivial, ?_, List.forall_mem_nil _, ?_⟩, rfl⟩
      · exact h.booked.of_fields rfl rfl rfl rfl rfl rfl
      · simp [Journal.flat]
      · exact hs.of_registry rfl (.of_not_chunk fun c hne => by cases hne)
      · intro header' length' data' htail
        cases htail
        exact hp header length data rfl
    · rw [AttachmentWriter.putBytes_tooLarge hle (by omega)]
      have hsame : { w with writer := some (.attachment (AttachmentWriter.holding w.options c
          (dataBytes w.options es) header length data)) } = w := by
        rw [← hslot]
      simp only [hsame]
      exact .inr (.refl h hs hp)

theorem attached_shows {c : CountingCrcWriter Stream}
    (h : Shows w ⟨es, .attachment header length data⟩) (hc : c.Holds w.options es) :
    Shows { w with
      attachmentCount := w.attachmentCount + 1
      attachmentIndexes :=
        if w.options.emitAttachmentIndexes then
          w.attachmentIndexes ++
            [attachmentIndex w.options (dataBytes w.options es).length header data]
        else w.attachmentIndexes
      writer := some (.raw
        (c.push (dataBytes w.options es) (attachmentRecord w.options header data).frame)) }
      ⟨es ++ [.record (attachmentRecord w.options header data)], .raw⟩ := by
  refine ⟨h.notFinished, .raw (hc.push _), ?_, ?_⟩
  · intro rs b hmem
    rcases List.mem_append.mp hmem with hold | hnew
    · exact h.packed rs b hold
    · cases List.mem_singleton.mp hnew
  · refine h.booked.step rfl ?_ ?_ ?_ ?_ ?_
    · simp [chunkIndexOf]
    · simp [attachmentIndexOf, attachmentRecord]
    · simp only [attachmentIndexOf, attachmentRecord, Option.toList_some]
      split <;> simp
    · simp [metadataIndexOf, attachmentRecord]
    · simp [metadataIndexOf, attachmentRecord]

theorem finishAttachment_onward (h : Shows w j) (hs : w.Sound) (hp : j.Pending K w.options) :
    Cleanly (fun _ w' => Onward K w j w') (finishAttachment w) := by
  obtain ⟨es, tail⟩ := j
  have hm := h.mode
  generalize hslot : w.writer = slot, hd : w.dropped = dropped at hm
  cases hm with
  | raw hc | chunk hran | lost hc =>
    simp only [finishAttachment, hslot]
    exact .inr (.refl h hs hp)
  | @attachment _ header length data c _ hholds hle =>
    simp only [finishAttachment, hslot]
    by_cases hlen : length.toNat = data.length
    · rw [AttachmentWriter.finish_holding hlen]
      refine ⟨[attachmentRecord w.options header data],
        ⟨es ++ [.record (attachmentRecord w.options header data)], .raw⟩, ⟨attached_shows h hholds,
          rfl, ?_, rfl, ⟨trivial, trivial⟩, ?_, List.forall_mem_singleton.mpr ?_,
          Journal.Free.pending (Journal.Open.free (.inl rfl)) _⟩, rfl⟩
      · simp [Journal.flat, Entry.flat]
      · exact hs.of_registry rfl (.of_not_chunk fun c hne => by cases hne)
      · refine hp header length data rfl data ?_
        rw [← hlen]
        exact length.toNat_lt
    · rw [AttachmentWriter.finish_incomplete hlen]
      refine .inr ⟨[], ⟨es, .lost⟩, ⟨⟨h.notFinished, .lost hholds, h.packed, ?_⟩, rfl, ?_, rfl,
        trivial, ?_, List.forall_mem_nil _, ?_⟩, rfl⟩
      · exact h.booked.of_fields rfl rfl rfl rfl rfl rfl
      · simp [Journal.flat]
      · exact hs.of_registry rfl (.of_not_chunk fun c hne => by cases hne)
      · intro header' length' data' htail
        cases htail

/-- The header of an attachment. -/
def attachmentHeader (attachment : Attachment) : AttachmentHeader where
  logTime := attachment.logTime
  createTime := attachment.createTime
  name := attachment.name
  mediaType := attachment.mediaType

theorem attach_onward (h : Shows w j) (hs : w.Sound) (hp : j.Pending K w.options)
    {attachment : Attachment} (hK : (attachmentHeader attachment).Keeps K w.options) :
    Cleanly (fun _ w' => Onward K w j w') (attach attachment w) := by
  refine onward_bind (startAttachment_onward h hs hp _ hK) fun _ w₁ j₁ h₁ hs₁ hp₁ _ => ?_
  exact onward_bind (putAttachmentBytes_onward h₁ hs₁ hp₁ _) fun _ w₂ j₂ h₂ hs₂ hp₂ _ =>
    finishAttachment_onward h₂ hs₂ hp₂

theorem putMetadata_shows (h : Shows w ⟨es, .raw⟩) (metadata : Metadata) :
    ∃ c, onRaw (putMetadata metadata) w = (.ok ((dataBytes w.options es).length,
        (Record.metadata metadata).frame.length), { w with writer := some (.raw c) }) ∧
      Shows { w with
        writer := some (.raw c)
        metadataCount := w.metadataCount + 1
        metadataIndexes :=
          if w.options.emitMetadataIndexes then
            w.metadataIndexes ++ [{
              offset := .ofNat (dataBytes w.options es).length
              length := .ofNat (Record.metadata metadata).frame.length
              name := metadata.name }]
          else w.metadataIndexes } ⟨es ++ [.record (.metadata metadata)], .raw⟩ := by
  have hr : (Record.metadata metadata).written = some (Record.metadata metadata).frame :=
    congrArg some (Record.written_eq_some rfl)
  obtain ⟨c, hc, hholds⟩ := h.raw
  have hput : putMetadata metadata c = .ok (((dataBytes w.options es).length,
      (Record.metadata metadata).frame.length),
        c.push (dataBytes w.options es) (Record.metadata metadata).frame) := by
    unfold putMetadata
    rw [position_of_streamPosition hholds.onTape.streamPosition]
    simp only [Res.ok_bind]
    rw [writeRecord_of_writeAll hr (hholds.onTape.writeAll _)]
    simp only [Res.ok_bind]
    rw [position_of_streamPosition (CountingCrcWriter.onTape_push ..).streamPosition]
    simp only [Res.ok_bind, List.length_append, Nat.add_sub_cancel_left]
    rfl
  refine ⟨c.push (dataBytes w.options es) (Record.metadata metadata).frame, ?_, h.notFinished,
    .raw (hholds.push _), ?_, ?_⟩
  · simp only [onRaw, hc, hput]
  · intro rs b hmem
    rcases List.mem_append.mp hmem with hold | hnew
    · exact h.packed rs b hold
    · cases List.mem_singleton.mp hnew
  · refine h.booked.step rfl ?_ ?_ ?_ ?_ ?_
    · simp [chunkIndexOf]
    · simp [attachmentIndexOf]
    · simp [attachmentIndexOf]
    · simp [metadataIndexOf]
    · simp only [metadataIndexOf, Option.toList_some]
      split <;> simp

theorem writeMetadata_onward (h : Shows w j) (hs : w.Sound) (hp : j.Pending K w.options)
    {metadata : Metadata} (hK : K (.metadata metadata)) :
    Cleanly (fun _ w' => Onward K w j w') (writeMetadata metadata w) := by
  refine onward_of_finishChunk h hs hp fun w' es hext hs' => ?_
  obtain ⟨c, hraw, hshows⟩ := putMetadata_shows hext.shows_ metadata
  rw [Exec.bind_ok hraw]
  refine ⟨[.metadata metadata], ⟨es ++ [.record (.metadata metadata)], .raw⟩, ⟨hshows, rfl, ?_, rfl,
    ⟨trivial, trivial⟩, ?_, List.forall_mem_singleton.mpr hK,
    Journal.Free.pending (Journal.Open.free (.inl rfl)) _⟩, rfl⟩
  · simp [Journal.flat, Entry.flat]
  · exact hs'.of_registry rfl (.of_not_chunk fun c hne => by cases hne)

/-! ## Messages -/

theorem writeToKnownChannel_posts (h : Shows w j) (hs : w.Sound) (hfree : j.Free)
    {header : MessageHeader} (hK : K (.message header data)) :
    Cleanly (fun res w' => Posts K w j [(header, data)] res w' ∧
        w'.ledger.schemas = w.ledger.schemas ∧ w'.ledger.channels = w.ledger.channels ∧
        (w.allChannelIds.contains header.channelId = true → res = .ok ()))
      (writeToKnownChannel header data w) := by
  by_cases hk : w.allChannelIds.contains header.channelId = true
  · have h₁ : Shows (countMessage header w) j :=
      h.congr rfl rfl rfl rfl (h.booked.of_fields rfl rfl rfl rfl rfl rfl)
    rw [writeToKnownChannel_run hk]
    rcases hfree.open_or_lost with ho | hlost
    · refine .of_okOrIo ((rollChunk_shows h₁ ho).bind fun _ w₂ ⟨j₂, hext⟩ =>
        (writeMessageRecord_shows header data hext.shows_ hext.isOpen).mono fun _ w₃ ⟨j₃, hext'⟩ =>
          ⟨j₃, hext.trans hext'⟩) (P := fun _ w' => ∃ j', Extended (countMessage header w) j
            [.message header data] w' j') ?_
      rintro - w' ⟨j', hext⟩
      have hledger : w'.ledger = w.ledger.step (.message header data) := ledger_of_core hext.core
      have hopts : w'.options = w.options := options_of_core (w := countMessage header w) hext.core
      refine ⟨⟨[.message header data], j', ⟨hext.shows_, hopts, hext.flat, hledger, ?_, ?_,
        List.forall_mem_singleton.mpr hK, hext.isOpen.free.pending _⟩, rfl⟩, ?_, ?_, fun _ => rfl⟩
      · exact Ledger.allowsAll_singleton.mpr (hs.channels.isSome_contentOf hk)
      · exact hs.of_registry (registry_of_core (w := countMessage header w) hext.core)
          hext.shows_.placed
      · rw [hledger]
        rfl
      · rw [hledger]
        rfl
    · rw [rollChunk_writeMessage_panic (h₁.not_usable hlost)]
      trivial
  · have hfalse : w.allChannelIds.contains header.channelId = false := Bool.eq_false_iff.mpr hk
    rw [writeToKnownChannel, Exec.bind_ok (Exec.get_run w), if_pos hfalse]
    exact .inr ⟨(Onward.refl h hs (hfree.pending _)).posts_err, rfl, rfl,
      fun hne => absurd hne hk⟩

/-- The header of a message. -/
def messageHeader (message : Message) : MessageHeader where
  channelId := message.channel.id
  sequence := message.sequence
  logTime := message.logTime
  publishTime := message.publishTime

/-- What the ledger says of a channel of a message, its schema included. -/
def Registered (l : Ledger) (channel : Channel) : Prop :=
  l.channels channel.id = some channel.content ∧
    ∀ schema, channel.schema = some schema → l.schemas schema.id = some schema.content

/-- The schema part of a message, if it has one. -/
def registerSchemas (schema : Option Schema) : Exec (Writer σ Stream) McapError Unit :=
  match schema with
  | some schema => registerSchema schema
  | none => pure ()

theorem write_eq (message : Message) :
    (write message : Exec (Writer σ Stream) McapError Unit) =
      (registerSchemas message.channel.schema >>= fun _ => registerChannel message.channel >>=
        fun _ => writeToKnownChannel (messageHeader message) message.data) := by
  rw [write]
  cases message.channel.schema <;> rfl

theorem registerSchemas_quietly (h : Shows w j) (hs : w.Sound) (hfree : j.Free)
    {schema : Option Schema} (hK : ∀ s, schema = some s → K (s.content.record s.id)) :
    Cleanly (fun res w' => Quietly K w j w' ∧
        ((∀ s, schema = some s → w.AcceptsSchema s) → res = .ok ()) ∧
        (res = .ok () → (∀ s, schema = some s → w'.ledger.schemas s.id = some s.content) ∧
          w'.ledger.channels = w.ledger.channels))
      (registerSchemas schema w) := by
  cases schema with
  | none => exact ⟨.refl h hs hfree, fun _ => rfl, fun _ => ⟨fun s hne => (by cases hne), rfl⟩⟩
  | some schema =>
    refine (registerSchema_quietly h hs hfree schema (hK schema rfl)).mono fun res w' hq =>
      ⟨hq.1, fun hacc => hq.2.1 (hacc schema rfl), fun hok => ⟨fun s hs => ?_, (hq.2.2 hok).2⟩⟩
    cases hs
    exact (hq.2.2 hok).1

/-- The records that a message brings with it are of the kind `K`. -/
structure KeepsMessage (K : Record → Prop) (message : Message) : Prop where
  schema : ∀ s, message.channel.schema = some s → K (s.content.record s.id)
  channel : K (message.channel.content.record message.channel.id)
  message : K (.message (messageHeader message) message.data)

/-- **A message is written** with its schema and its channel, if they are new. -/
theorem write_posts (h : Shows w j) (hs : w.Sound) (hfree : j.Free) {message : Message}
    (hK : KeepsMessage K message) :
    Cleanly (fun res w' => Posts K w j [(messageHeader message, message.data)] res w' ∧
        ((∀ s, message.channel.schema = some s → w.AcceptsSchema s) →
          w.AcceptsChannel message.channel → res = .ok ()) ∧
        (res = .ok () → Registered w'.ledger message.channel))
      (write message w) := by
  rw [write_eq]
  refine (registerSchemas_quietly h hs hfree hK.schema).bind ?_ ?_
  · rintro ⟨⟩ w₁ ⟨⟨records₁, j₁, hadv₁, hfree₁, hm₁⟩, -, hschemas⟩
    obtain ⟨hknown, hsameChannels⟩ := hschemas rfl
    have href : message.channel.content.schemaId = 0 ∨
        (w₁.ledger.schemas message.channel.content.schemaId).isSome := by
      rcases hsch : message.channel.schema with _ | s
      · exact .inl (by simp [Channel.content, hsch])
      · refine .inr ?_
        have hid : message.channel.content.schemaId = s.id := by simp [Channel.content, hsch]
        rw [hid, hknown s hsch]
        rfl
    have haccepts : w.AcceptsChannel message.channel → w₁.AcceptsChannel message.channel := by
      rw [acceptsChannel_iff hs, acceptsChannel_iff hadv₁.sound, hsameChannels]
      exact id
    refine (registerChannel_quietly hadv₁.shows_ hadv₁.sound hfree₁ message.channel href
      hK.channel).bind ?_ ?_
    · rintro ⟨⟩ w₂ ⟨⟨records₂, j₂, hadv₂, hfree₂, hm₂⟩, -, hchannel⟩
      obtain ⟨hch, hsame⟩ := hchannel rfl
      have hcontains : w₂.allChannelIds.contains message.channel.id = true := by
        rw [BTreeMap.contains_iff]
        cases hid : w₂.allChannelIds[message.channel.id]? with
        | none =>
          rw [show w₂.ledger.channels message.channel.id = none from contentOf_eq_none hid] at hch
          cases hch
        | some id => exact ⟨id, rfl⟩
      refine (writeToKnownChannel_posts hadv₂.shows_ hadv₂.sound hfree₂ hK.message).mono ?_
      rintro res w₃ ⟨⟨records₃, j₃, hadv₃, hm₃⟩, hs₃, hc₃, hok₃⟩
      refine ⟨⟨_, j₃, (hadv₁.trans hadv₂).trans hadv₃, ?_⟩, fun _ _ => hok₃ hcontains,
        fun _ => ⟨?_, ?_⟩⟩
      · rw [messagesOf_append, messagesOf_append, hm₁, hm₂, hm₃]
        rfl
      · rw [hc₃, hch]
      · intro s hsch
        rw [hs₃, hsame, hknown s hsch]
    · rintro e w₂ ⟨⟨records₂, j₂, hadv₂, hfree₂, hm₂⟩, hacc, -⟩
      refine ⟨⟨_, j₂, hadv₁.trans hadv₂, ?_⟩, fun _ hch => ?_, fun hne => by cases hne⟩
      · rw [messagesOf_append, hm₁, hm₂]
        rfl
      · cases hacc (haccepts hch)
  · rintro e w₁ ⟨hq, hacc, -⟩
    refine ⟨hq.onward.posts_err, fun hs _ => ?_, fun hne => by cases hne⟩
    cases hacc hs

end Writer

/-! ## What a call must not do while an attachment is in progress -/

/-- **The call gets past its own checks** to where it registers a schema or a channel or
counts a message. -/
def Op.Touches (w : Writer σ Stream) : Op → Prop
  | .addSchema name encoding data =>
      w.canonicalSchemas.getByLeft ⟨name, encoding, data⟩ = none ∧
        ¬ w.allSchemaIds.contains (IdTable.candidate w.allSchemaIds w.nextSchemaId) = true
  | .addChannel schemaId topic messageEncoding metadata =>
      w.canonicalChannels.getByLeft ⟨topic, schemaId, messageEncoding, metadata⟩ = none ∧
        ¬ (schemaId ≠ 0 ∧ w.allSchemaIds.contains schemaId = false) ∧
        ¬ w.allChannelIds.contains (IdTable.candidate w.allChannelIds w.nextChannelId) = true
  | .write message =>
      (∀ schema, message.channel.schema = some schema → w.AcceptsSchema schema) ∧
        ((∃ schema, message.channel.schema = some schema ∧ w.allSchemaIds[schema.id]? = none) ∨
          w.AcceptsChannel message.channel)
  | .writeToKnownChannel header _ => w.allChannelIds.contains header.channelId = true
  | _ => False

/-- The messages a call writes. -/
def Op.messages : Op → List (MessageHeader × Bytes)
  | .write message => [(Writer.messageHeader message, message.data)]
  | .writeToKnownChannel header data => [(header, data)]
  | _ => []

namespace Writer

omit [Encoders σ] in
theorem registerSchema_refused [Encoders σ] {schema : Schema} (hacc : ¬ w.AcceptsSchema schema) :
    registerSchema schema w = (.err (.conflictingSchemas schema.name), w) ∨
      registerSchema schema w = (.panic, w) := by
  cases hid : w.allSchemaIds[schema.id]? with
  | none => exact absurd (.inl hid) hacc
  | some other =>
    cases hc : w.canonicalSchemas.getByLeft schema.content with
    | none => exact .inr (registerSchema_panic hid hc)
    | some id =>
      refine .inl ?_
      rw [registerSchema_taken hid hc, if_pos]
      rintro rfl
      exact hacc (.inr ⟨other, hid, hc⟩)

theorem registerChannel_refused {channel : Channel} (hacc : ¬ w.AcceptsChannel channel) :
    registerChannel channel w = (.err (.conflictingChannels channel.topic), w) ∨
      registerChannel channel w = (.panic, w) := by
  cases hid : w.allChannelIds[channel.id]? with
  | none => exact absurd (.inl hid) hacc
  | some other =>
    cases hc : w.canonicalChannels.getByLeft channel.content with
    | none => exact .inr (registerChannel_panic hid hc)
    | some id =>
      refine .inl ?_
      rw [registerChannel_taken hid hc, if_pos]
      rintro rfl
      exact hacc (.inr ⟨id, hid, hc⟩)

theorem registerSchemas_accepted {schema : Option Schema}
    (hacc : ∀ s, schema = some s → w.AcceptsSchema s)
    (hold : ∀ s, schema = some s → w.allSchemaIds[s.id]? ≠ none) :
    registerSchemas schema w = (.ok (), w) := by
  cases schema with
  | none => rfl
  | some s =>
    rcases hacc s rfl with hnew | ⟨id, hid, hc⟩
    · exact absurd hnew (hold s rfl)
    · rw [registerSchemas, registerSchema_taken hid hc, if_neg (not_not_intro rfl)]

theorem write_untouched {message : Message} (h : ¬ Op.Touches w (.write message)) :
    (∃ e, ¬ IsIo e ∧ write message w = (.err e, w)) ∨ write message w = (.panic, w) := by
  rw [write_eq]
  by_cases hacc : ∀ s, message.channel.schema = some s → w.AcceptsSchema s
  · have hold : ∀ s, message.channel.schema = some s → w.allSchemaIds[s.id]? ≠ none :=
      fun s hs hnone => h ⟨hacc, .inl ⟨s, hs, hnone⟩⟩
    have hch : ¬ w.AcceptsChannel message.channel := fun hch => h ⟨hacc, .inr hch⟩
    rw [Exec.bind_ok (registerSchemas_accepted hacc hold)]
    rcases registerChannel_refused hch with hr | hr
    · refine .inl ⟨_, ?_, Exec.bind_err hr⟩
      rintro ⟨e, he⟩
      cases he
    · exact .inr (Exec.bind_panic hr)
  · obtain ⟨s, hs, hna⟩ : ∃ s, message.channel.schema = some s ∧ ¬ w.AcceptsSchema s := by
      simpa only [not_forall, exists_prop] using hacc
    rw [hs]
    rcases registerSchema_refused hna with hr | hr
    · refine .inl ⟨_, ?_, Exec.bind_err hr⟩
      rintro ⟨e, he⟩
      cases he
    · exact .inr (Exec.bind_panic hr)

end Writer

/-! ## Calls -/

/-- What the call has done, and what it has written if it has succeeded, is what the
method has. -/
theorem Posts.ofUnit {x : Exec (Writer σ Stream) McapError Unit}
    {messages : List (MessageHeader × Bytes)} (h : Cleanly (Posts K w j messages) (x w)) :
    Cleanly (Posts K w j messages) (Reply.ofUnit x w) :=
  h.bind (fun _ _ hq => hq) fun _ _ hq => hq

theorem Onward.ofUnit {x : Exec (Writer σ Stream) McapError Unit}
    (h : Cleanly (fun _ w' => Onward K w j w') (x w)) : Cleanly (Posts K w j []) (Reply.ofUnit x w) :=
  h.bind (fun _ _ hq => hq.posts) fun _ _ hq => hq.posts

theorem Onward.ofId {x : Exec (Writer σ Stream) McapError UInt16}
    (h : Cleanly (fun _ w' => Onward K w j w') (x w)) : Cleanly (Posts K w j []) (Reply.ofId x w) :=
  h.bind (fun _ _ hq => hq.posts) fun _ _ hq => hq.posts

/-- The records that a call may write are of the kind `K`. -/
def Op.Keeps (K : Record → Prop) (o : WriteOptions) : Op → Prop
  | .addSchema name encoding data => ∀ id, K (SchemaContent.record ⟨name, encoding, data⟩ id)
  | .addChannel schemaId topic messageEncoding metadata =>
      ∀ id, K (ChannelContent.record ⟨topic, schemaId, messageEncoding, metadata⟩ id)
  | .write message => Writer.KeepsMessage K message
  | .writeToKnownChannel header data => K (.message header data)
  | .writePrivateRecord opcode data _ => 0x80 ≤ opcode → K (.unknown opcode data)
  | .startAttachment _ header => header.Keeps K o
  | .attach attachment => (Writer.attachmentHeader attachment).Keeps K o
  | .writeMetadata metadata => K (.metadata metadata)
  | _ => True

theorem Op.keeps_true (o : WriteOptions) (op : Op) : op.Keeps (fun _ => True) o := by
  cases op with
  | write message => exact ⟨fun _ _ => trivial, trivial, trivial⟩
  | _ => simp [Op.Keeps, AttachmentHeader.Keeps]

/-- **Every call advances the journal**, unless it registers or counts while an attachment
is in progress. -/
theorem op_advances (h : Shows w j) (hs : w.Sound) (hp : j.Pending K w.options) {op : Op}
    (hsafe : op.Touches w → j.Free) (hK : op.Keeps K w.options) :
    Cleanly (Posts K w j op.messages) (op.run w) := by
  -- a call that does not get past its checks is only needed where it is not free
  cases op with
  | addSchema name encoding data =>
    refine Onward.ofId ?_
    by_cases hc : w.canonicalSchemas.getByLeft ⟨name, encoding, data⟩ = none
    · by_cases hfull : w.allSchemaIds.contains
        (IdTable.candidate w.allSchemaIds w.nextSchemaId) = true
      · rw [Writer.addSchema_full hc hfull]
        refine .inr ⟨[], j, ⟨?_, rfl, (List.append_nil _).symm, rfl, trivial,
          ⟨hs.placed, hs.schemas.at_candidate, hs.channels⟩, List.forall_mem_nil _, hp⟩, rfl⟩
        exact h.congr rfl rfl rfl rfl (h.booked.of_fields rfl rfl rfl rfl rfl rfl)
      · exact (Writer.addSchema_quietly h hs (hsafe ⟨hc, hfull⟩) _ _ _ hK).mono
          fun _ _ hq => hq.1.onward
    · obtain ⟨id, hid⟩ := Option.ne_none_iff_exists'.mp hc
      rw [Writer.addSchema_known hid]
      exact .refl h hs hp
  | addChannel schemaId topic messageEncoding metadata =>
    refine Onward.ofId ?_
    by_cases hc : w.canonicalChannels.getByLeft ⟨topic, schemaId, messageEncoding, metadata⟩ = none
    · by_cases hunk : schemaId ≠ 0 ∧ w.allSchemaIds.contains schemaId = false
      · rw [Writer.addChannel_unknownSchema hc hunk]
        exact .inr (.refl h hs hp)
      · by_cases hfull : w.allChannelIds.contains
          (IdTable.candidate w.allChannelIds w.nextChannelId) = true
        · rw [Writer.addChannel_full hc hunk hfull]
          refine .inr ⟨[], j, ⟨?_, rfl, (List.append_nil _).symm, rfl, trivial,
            ⟨hs.placed, hs.schemas, hs.channels.at_candidate⟩, List.forall_mem_nil _, hp⟩, rfl⟩
          exact h.congr rfl rfl rfl rfl (h.booked.of_fields rfl rfl rfl rfl rfl rfl)
        · exact (Writer.addChannel_quietly h hs (hsafe ⟨hc, hunk, hfull⟩) _ _ _ _ hK).mono
            fun _ _ hq => hq.1.onward
    · obtain ⟨id, hid⟩ := Option.ne_none_iff_exists'.mp hc
      rw [Writer.addChannel_known hid]
      exact .refl h hs hp
  | write message =>
    refine Posts.ofUnit ?_
    by_cases ht : Op.Touches w (.write message)
    · exact (Writer.write_posts h hs (hsafe ht) hK).mono fun _ _ hq => hq.1
    · rcases Writer.write_untouched ht with ⟨e, -, hr⟩ | hr
      · rw [hr]
        exact .inr (Onward.refl h hs hp).posts_err
      · rw [hr]
        trivial
  | writeToKnownChannel header data =>
    refine Posts.ofUnit ?_
    by_cases hk : w.allChannelIds.contains header.channelId = true
    · exact (Writer.writeToKnownChannel_posts h hs (hsafe hk) hK).mono fun _ _ hq => hq.1
    · have hfalse : w.allChannelIds.contains header.channelId = false := Bool.eq_false_iff.mpr hk
      rw [Writer.writeToKnownChannel, Exec.bind_ok (Exec.get_run w), if_pos hfalse]
      exact .inr (Onward.refl h hs hp).posts_err
  | writePrivateRecord opcode data includeInChunks =>
    exact Onward.ofUnit (Writer.writePrivateRecord_onward h hs hp hK _)
  | startAttachment length header =>
    exact Onward.ofUnit (Writer.startAttachment_onward h hs hp length hK)
  | putAttachmentBytes bytes => exact Onward.ofUnit (Writer.putAttachmentBytes_onward h hs hp _)
  | finishAttachment => exact Onward.ofUnit (Writer.finishAttachment_onward h hs hp)
  | attach attachment => exact Onward.ofUnit (Writer.attach_onward h hs hp hK)
  | writeMetadata metadata => exact Onward.ofUnit (Writer.writeMetadata_onward h hs hp hK)
  | flush => exact Onward.ofUnit (Writer.flush_onward h hs hp)

/-! ## Calls that are refused -/

section
variable {es : List Entry} {header : AttachmentHeader} {length : UInt64} {data : Bytes}

/-- The call is refused, and the journal is what it was. -/
def Rejected {α : Type} (w : Writer σ Stream) (j : Journal) (x : Res McapError α × Writer σ Stream) :
    Prop :=
  ∃ w', x = (.err .attachmentNotInProgress, w') ∧ Shows w' j ∧ w'.Sound ∧ w'.options = w.options

theorem Rejected.bind {α β : Type} {x : Exec (Writer σ Stream) McapError α}
    {f : α → Exec (Writer σ Stream) McapError β} (h : Rejected w j (x w)) :
    Rejected w j ((x >>= f) w) := by
  obtain ⟨w', hx, hw'⟩ := h
  exact ⟨w', Exec.bind_err hx, hw'⟩

namespace Writer

theorem writeDefinition_refused (h : Shows w ⟨es, .attachment header length data⟩) (r : Record) :
    writeDefinition r w = (.err .attachmentNotInProgress, w) := by
  rw [writeDefinition, Exec.bind_ok (Exec.get_run w)]
  split
  · exact Exec.bind_err (startChunk_refused h)
  · exact Exec.bind_err (finishChunk_refused h)

theorem rollChunk_attachment (h : Shows w ⟨es, .attachment header length data⟩) :
    rollChunk w = (.ok (), w) := by
  obtain ⟨c, -, -, hw⟩ := h.attachment
  rw [rollChunk, Exec.bind_ok (Exec.get_run w), hw]
  rfl

theorem writeToKnownChannel_refused (h : Shows w ⟨es, .attachment header length data⟩)
    (hs : w.Sound) {messageHeader : MessageHeader} {bytes : Bytes}
    (hk : w.allChannelIds.contains messageHeader.channelId = true) :
    Rejected w ⟨es, .attachment header length data⟩ (writeToKnownChannel messageHeader bytes w) := by
  have h₁ : Shows (countMessage messageHeader w) ⟨es, .attachment header length data⟩ :=
    h.congr rfl rfl rfl rfl (h.booked.of_fields rfl rfl rfl rfl rfl rfl)
  have hs₁ : (countMessage messageHeader w).Sound := ⟨hs.placed, hs.schemas, hs.channels⟩
  rw [writeToKnownChannel_run hk, Exec.bind_ok (rollChunk_attachment h₁), writeMessageRecord,
    Exec.bind_ok (Exec.get_run _)]
  split
  · exact ⟨_, Exec.bind_err (startChunk_refused h₁), h₁, hs₁, rfl⟩
  · exact ⟨_, Exec.bind_err (finishChunk_refused h₁), h₁, hs₁, rfl⟩

theorem registerSchema_refused_new (h : Shows w ⟨es, .attachment header length data⟩) (hs : w.Sound)
    {schema : Schema} (hid : w.allSchemaIds[schema.id]? = none) :
    Rejected w ⟨es, .attachment header length data⟩ (registerSchema schema w) := by
  cases hc : w.canonicalSchemas.getByLeft schema.content with
  | none =>
    obtain ⟨canonicalSchemas, -, hs', hrun⟩ := registerSchema_new hs hid hc
    rw [hrun]
    exact ⟨_, writeDefinition_refused (h.withSchema ..) _, h.withSchema .., hs', rfl⟩
  | some c =>
    obtain ⟨hs', hrun⟩ := registerSchema_known hs hid hc
    rw [hrun]
    exact ⟨_, writeDefinition_refused (h.withSchemaIds _) _, h.withSchemaIds _, hs', rfl⟩

theorem registerChannel_refused_new (h : Shows w ⟨es, .attachment header length data⟩) (hs : w.Sound)
    {channel : Channel} (hid : w.allChannelIds[channel.id]? = none) :
    Rejected w ⟨es, .attachment header length data⟩ (registerChannel channel w) := by
  cases hc : w.canonicalChannels.getByLeft channel.content with
  | none =>
    obtain ⟨canonicalChannels, -, hs', hrun⟩ := registerChannel_new hs hid hc
    rw [hrun]
    exact ⟨_, writeDefinition_refused (h.withChannel ..) _, h.withChannel .., hs', rfl⟩
  | some c =>
    obtain ⟨hs', hrun⟩ := registerChannel_known hs hid hc
    rw [hrun]
    exact ⟨_, writeDefinition_refused (h.withChannelIds _) _, h.withChannelIds _, hs', rfl⟩

theorem write_refused (h : Shows w ⟨es, .attachment header length data⟩) (hs : w.Sound)
    {message : Message} (ht : Op.Touches w (.write message)) :
    Rejected w ⟨es, .attachment header length data⟩ (write message w) := by
  obtain ⟨hacc, hcase⟩ := ht
  rw [write_eq]
  by_cases hold : ∀ s, message.channel.schema = some s → w.allSchemaIds[s.id]? ≠ none
  · rw [Exec.bind_ok (registerSchemas_accepted hacc hold)]
    rcases hcase with ⟨s, hsch, hnone⟩ | hch
    · exact absurd hnone (hold s hsch)
    · rcases hch with hnew | ⟨id, hid, hc⟩
      · exact (registerChannel_refused_new h hs hnew).bind
      · have hk : w.allChannelIds.contains (messageHeader message).channelId = true :=
          (BTreeMap.contains_iff _ _).mpr ⟨id, hid⟩
        rw [Exec.bind_ok (show registerChannel message.channel w = (.ok (), w) by
          rw [registerChannel_taken hid hc, if_neg (not_not_intro rfl)])]
        exact writeToKnownChannel_refused h hs hk
  · obtain ⟨s, hsch, hnone⟩ : ∃ s, message.channel.schema = some s ∧
        w.allSchemaIds[s.id]? = none := by
      simpa only [not_forall, not_not, exists_prop] using hold
    rw [hsch]
    exact (registerSchema_refused_new h hs hnone).bind

end Writer

/-- **A call that gets past its checks while an attachment is in progress is refused.** -/
theorem touches_refused (h : Shows w ⟨es, .attachment header length data⟩) (hs : w.Sound) {op : Op}
    (ht : op.Touches w) : Rejected w ⟨es, .attachment header length data⟩ (op.run w) := by
  cases op with
  | addSchema name encoding bytes =>
    obtain ⟨canonicalSchemas, -, hs', hrun⟩ := Writer.addSchema_new hs ht.1 ht.2
    refine Rejected.bind ?_
    rw [hrun]
    exact ⟨_, Exec.bind_err (Writer.writeDefinition_refused (h.withSchema ..) _), h.withSchema ..,
      hs', rfl⟩
  | addChannel schemaId topic messageEncoding metadata =>
    obtain ⟨canonicalChannels, -, hs', hrun⟩ := Writer.addChannel_new hs ht.1 ht.2.1 ht.2.2
    refine Rejected.bind ?_
    rw [hrun]
    exact ⟨_, Exec.bind_err (Writer.writeDefinition_refused (h.withChannel ..) _), h.withChannel ..,
      hs', rfl⟩
  | write message => exact (Writer.write_refused h hs ht).bind
  | writeToKnownChannel messageHeader bytes =>
    exact (Writer.writeToKnownChannel_refused h hs ht).bind
  | _ => exact ht.elim

end

/-! ## Runs -/

/-- The call has returned, and not with an error of the stream or the encoder. -/
def Returned {α : Type} (res : Res McapError α) : Prop :=
  res ≠ .panic ∧ ∀ e, res = .err e → ¬ IsIo e

instance {α : Type} (res : Res McapError α) : Decidable (Returned res) :=
  match res with
  | .ok _ => isTrue ⟨fun hne => (by cases hne), fun e hne => (by cases hne)⟩
  | .err e =>
      decidable_of_iff (¬ IsIo e)
        ⟨fun h => ⟨fun hne => (by cases hne), fun e' he => (by cases he; exact h)⟩,
          fun h => h.2 e rfl⟩
  | .panic => isFalse fun h => h.1 rfl

theorem returned_of_ok {α : Type} {res : Res McapError α} {a : α} (h : res = .ok a) :
    Returned res := by
  subst h
  exact ⟨fun hne => (by cases hne), fun e hne => (by cases hne)⟩

theorem Cleanly.elim {α S : Type} {Q : Res McapError α → S → Prop} {x : Res McapError α × S}
    (h : Cleanly Q x) (hr : Returned x.1) : Q x.1 x.2 := by
  rcases x with ⟨a | e | _, s⟩
  · exact h
  · exact h.resolve_left (hr.2 e rfl)
  · exact absurd rfl hr.1

/-- **A session**: calls on a new writer over an empty stream, with their results.  `P` holds
of the writer, the call and the result, every time. -/
inductive Writer.Session (P : Writer σ Stream → Op → Res McapError Reply → Prop) (o : WriteOptions) :
    List (Op × Res McapError Reply) → Writer σ Stream → Prop
  | start {w : Writer σ Stream} : Writer.withOptions Stream.empty o = .ok w → Session P o [] w
  | call {calls : List (Op × Res McapError Reply)} {w w' : Writer σ Stream} {op : Op}
      {res : Res McapError Reply} : Session P o calls w → P w op res → op.run w = (res, w') →
      Returned res → Session P o (calls ++ [(op, res)]) w'

/-- The messages of the calls that have succeeded. -/
def sentBy (calls : List (Op × Res McapError Reply)) : List (MessageHeader × Bytes) :=
  calls.flatMap fun c => posted c.2 c.1.messages

/-- The channels of the messages that have been written are registered. -/
def ChannelsKnown (l : Ledger) (calls : List (Op × Res McapError Reply)) : Prop :=
  ∀ message reply, (Op.write message, .ok reply) ∈ calls → Writer.Registered l message.channel

/-- **What holds of a writer and its journal**: the journal shows what has been written, the
ledger is that of its records, each of them was allowed and is of the kind `K`, and the
messages are those of the calls. -/
structure Faithful (K : Record → Prop) (o : WriteOptions) (calls : List (Op × Res McapError Reply))
    (w : Writer σ Stream) (j : Journal) : Prop where
  options : w.options = o
  shows_ : Shows w j
  sound : w.Sound
  ledger : w.ledger = Ledger.empty.after j.flat
  allowed : Ledger.empty.AllowsAll j.flat
  kept : ∀ r ∈ j.flat, K r
  pending : j.Pending K o
  messages : messagesOf j.flat = sentBy calls
  channels : ChannelsKnown w.ledger calls

/-- The header of the file. -/
def fileHeader (o : WriteOptions) : Record := .header { profile := o.profile, library := o.library }

/-- The journal of a new writer. -/
def Journal.new (o : WriteOptions) : Journal := ⟨[.record (fileHeader o)], .raw⟩

theorem faithful_new (h : Writer.withOptions Stream.empty o = .ok w)
    (hK : K (fileHeader o)) : Faithful K o [] w (.new o) := by
  have hr : (fileHeader o).written = some (fileHeader o).frame := rfl
  have htape : (CountingCrcWriter.new Stream.empty o.calculateDataSectionCrc).OnTape [] := rfl
  unfold Writer.withOptions at h
  simp only at h
  rw [write_of_writeAll (htape.writeAll _)] at h
  simp only [dropWriter, Res.ok_bind] at h
  rw [← fileHeader, writeRecord_of_writeAll hr ((CountingCrcWriter.onTape_push ..).writeAll _)] at h
  simp only [Res.ok_bind] at h
  obtain ⟨mode, -, h⟩ := Res.bind_eq_ok.mp h
  cases h
  refine ⟨rfl, ⟨rfl, .raw ⟨?_, ?_⟩, ?_, ?_⟩, ⟨.of_not_chunk ?_, .empty, .empty⟩,
    ?_, ⟨trivial, trivial⟩, List.forall_mem_singleton.mpr hK,
    Journal.Free.pending (Journal.Open.free (.inl rfl)) _, rfl, fun _ _ hmem => by cases hmem⟩
  · rw [CountingCrcWriter.push_push]
    simp [dataBytes, Entry.bytes_record, CountingCrcWriter.OnTape, CountingCrcWriter.push,
      CountingCrcWriter.account]
  · rw [CountingCrcWriter.push_push]
    simp only [CountingCrcWriter.push, CountingCrcWriter.account, CountingCrcWriter.new,
      dataHasher, dataHashed]
    split
    · simp [Hasher.new, Hasher.update, Entry.hashed]
    · rfl
  · intro records out hmem
    cases List.mem_singleton.mp hmem
  · exact ⟨rfl, rfl, (ite_self _).symm, rfl, (ite_self _).symm⟩
  · intro c hne
    cases hne
  · have hschemas : contentOf (BiMap.empty : BiMap SchemaContent UInt16) ∅ = fun _ => none :=
      funext fun id => contentOf_eq_none Std.ExtTreeMap.getElem?_empty
    have hchannels : contentOf (BiMap.empty : BiMap ChannelContent UInt16) ∅ = fun _ => none :=
      funext fun id => contentOf_eq_none Std.ExtTreeMap.getElem?_empty
    rw [Writer.ledger]
    simp only [hschemas, hchannels]
    rfl

theorem write_registers {message : Message} {reply : Reply} (h : Shows w j) (hs : w.Sound)
    (hsafe : Op.Touches w (.write message) → j.Free)
    (hrun : (Op.write message).run w = (.ok reply, w')) :
    Writer.Registered w'.ledger message.channel := by
  obtain ⟨u, w₁, hwrite, hrest⟩ := Exec.bind_eq_ok.mp
    (show Reply.ofUnit (Writer.write message) w = (.ok reply, w') from hrun)
  cases hrest
  by_cases ht : Op.Touches w (.write message)
  · have hall : Writer.KeepsMessage (fun _ => True) message := ⟨fun _ _ => trivial, trivial, trivial⟩
    have hposts := Writer.write_posts h hs (hsafe ht) hall
    rw [hwrite] at hposts
    exact hposts.2.2 rfl
  · rcases Writer.write_untouched ht with ⟨e, -, hr⟩ | hr
    · rw [hr] at hwrite
      cases hwrite
    · rw [hr] at hwrite
      cases hwrite

theorem Advance.registered {records : List Record} (h : Advance K w j records w' j')
    {channel : Channel} (hreg : Writer.Registered w.ledger channel) :
    Writer.Registered w'.ledger channel := by
  rw [h.ledger]
  exact ⟨Ledger.channels_after h.allowed hreg.1,
    fun schema hs => Ledger.schemas_after h.allowed (hreg.2 schema hs)⟩

/-- **A call keeps the journal faithful.** -/
theorem Faithful.call {calls : List (Op × Res McapError Reply)} {op : Op}
    {res : Res McapError Reply} (h : Faithful K o calls w j) (hsafe : op.Touches w → j.Free)
    (hK : op.Keeps K o) (hrun : op.run w = (res, w')) (hr : Returned res) :
    ∃ j', Faithful K o (calls ++ [(op, res)]) w' j' := by
  have hp : j.Pending K w.options := by
    rw [h.options]
    exact h.pending
  have hK' : op.Keeps K w.options := by
    rw [h.options]
    exact hK
  have hadv := op_advances h.shows_ h.sound hp hsafe hK'
  rw [hrun] at hadv
  obtain ⟨records, j', hadv, hm⟩ := hadv.elim hr
  have hopts : w'.options = o := hadv.options.trans h.options
  refine ⟨j', hopts, hadv.shows_, hadv.sound, ?_, ?_, ?_, ?_, ?_, ?_⟩
  · rw [hadv.ledger, h.ledger, hadv.flat, Ledger.after_append]
  · rw [hadv.flat, Ledger.allowsAll_append, ← h.ledger]
    exact ⟨h.allowed, hadv.allowed⟩
  · rw [hadv.flat]
    exact List.forall_mem_append.mpr ⟨h.kept, hadv.kept⟩
  · rw [← hopts]
    exact hadv.pending
  · rw [hadv.flat, messagesOf_append, h.messages, hm, sentBy, sentBy, List.flatMap_append,
      List.flatMap_singleton]
  · intro message reply hmem
    rcases List.mem_append.mp hmem with hold | hnew
    · exact hadv.registered (h.channels message reply hold)
    · cases List.mem_singleton.mp hnew
      exact write_registers h.shows_ h.sound hsafe hrun

/-- **What holds of a writer and its journal in every session**: the journal shows what has
been written, and its records are of the kind `K`. -/
structure Recorded (K : Record → Prop) (o : WriteOptions) (w : Writer σ Stream) (j : Journal) :
    Prop where
  options : w.options = o
  shows_ : Shows w j
  sound : w.Sound
  kept : ∀ r ∈ j.flat, K r
  pending : j.Pending K o

theorem Faithful.recorded {calls : List (Op × Res McapError Reply)}
    (h : Faithful K o calls w j) : Recorded K o w j :=
  ⟨h.options, h.shows_, h.sound, h.kept, h.pending⟩

/-- **A call keeps the journal**, also if it registers or counts while an attachment is in
progress: it is refused then. -/
theorem Recorded.call {op : Op} {res : Res McapError Reply} (h : Recorded K o w j)
    (hK : op.Keeps K o) (hrun : op.run w = (res, w')) (hr : Returned res) :
    ∃ j', Recorded K o w' j' := by
  obtain ⟨rfl, hshows, hsound, hkept, hpending⟩ := h
  by_cases hsafe : op.Touches w → j.Free
  · have hadv := op_advances hshows hsound hpending hsafe hK
    rw [hrun] at hadv
    obtain ⟨records, j', hadv, -⟩ := hadv.elim hr
    refine ⟨j', hadv.options, hadv.shows_, hadv.sound, ?_, ?_⟩
    · rw [hadv.flat]
      exact List.forall_mem_append.mpr ⟨hkept, hadv.kept⟩
    · rw [← hadv.options]
      exact hadv.pending
  · obtain ⟨ht, hbusy⟩ := Classical.not_imp.mp hsafe
    obtain ⟨header, length, data, htail⟩ : ∃ header length data,
        j.tail = .attachment header length data := by
      simpa only [Journal.Free, not_forall, not_not] using hbusy
    obtain ⟨es, tail⟩ := j
    subst htail
    obtain ⟨w'', hx, hshows', hsound', hopts⟩ := touches_refused hshows hsound ht
    rw [hrun] at hx
    cases hx
    exact ⟨_, hopts, hshows', hsound', hkept, hpending⟩

/-- No attachment is in progress. -/
def Writer.Free (w : Writer σ Stream) : Prop := ∀ a, w.writer ≠ some (.attachment a)

theorem Shows.free (h : Shows w j) (hfree : w.Free) : j.Free := by
  intro header length data htail
  obtain ⟨es, tail⟩ := j
  subst htail
  obtain ⟨c, -, -, hc⟩ := h.attachment
  exact hfree _ hc

namespace Writer
variable {P : Writer σ Stream → Op → Res McapError Reply → Prop} {o : WriteOptions}
  {calls : List (Op × Res McapError Reply)}

/-- **The journal of a session** in which no call registers or counts while an attachment is
in progress. -/
theorem Session.faithful (h : Session P o calls w) (hheader : K (fileHeader o))
    (hP : ∀ w op res, P w op res → (op.Touches w → w.Free) ∧ op.Keeps K o) :
    ∃ j, Faithful K o calls w j := by
  induction h with
  | start hnew => exact ⟨_, faithful_new hnew hheader⟩
  | @call calls w w' op res _ hp hrun hr ih =>
    obtain ⟨j, hj⟩ := ih
    obtain ⟨hsafe, hK⟩ := hP w op res hp
    exact hj.call (fun ht => hj.shows_.free (hsafe ht)) hK hrun hr

/-- **The journal of a session** in which every call succeeds. -/
theorem Session.faithful_of_ok (h : Session P o calls w) (hheader : K (fileHeader o))
    (hP : ∀ w op res, P w op res → (∃ reply, res = .ok reply) ∧ op.Keeps K o) :
    ∃ j, Faithful K o calls w j := by
  induction h with
  | start hnew => exact ⟨_, faithful_new hnew hheader⟩
  | @call calls w w' op res _ hp hrun hr ih =>
    obtain ⟨j, hj⟩ := ih
    obtain ⟨⟨reply, rfl⟩, hK⟩ := hP w op res hp
    refine hj.call (fun ht header length data htail => ?_) hK hrun hr
    obtain ⟨es, tail⟩ := j
    subst htail
    obtain ⟨w'', hx, -⟩ := touches_refused hj.shows_ hj.sound ht
    rw [hrun] at hx
    cases hx

/-- **The journal of any session.** -/
theorem Session.recorded (h : Session P o calls w) (hheader : K (fileHeader o))
    (hP : ∀ w op res, P w op res → op.Keeps K o) : ∃ j, Recorded K o w j := by
  induction h with
  | start hnew => exact ⟨_, (faithful_new hnew hheader).recorded⟩
  | call _ hp hrun hr ih =>
    obtain ⟨j, hj⟩ := ih
    exact hj.call (hP _ _ _ hp) hrun hr

theorem Session.runAllOf (h : Session P o calls w) (ops : List Op)
    (hr : ∀ r ∈ (Op.runAll ops w).1, Returned r)
    (hP : ∀ w' op r, op ∈ ops → r ∈ (Op.runAll ops w).1 → P w' op r) :
    Session P o (calls ++ ops.zip (Op.runAll ops w).1) (Op.runAll ops w).2 := by
  induction ops generalizing calls w with
  | nil =>
    rw [List.zip_nil_left, List.append_nil]
    exact h
  | cons op ops ih =>
    rcases hop : op.run w with ⟨r, w'⟩
    by_cases hpanic : r = .panic
    · subst hpanic
      rw [Op.runAll, hop] at hr
      exact absurd rfl (hr .panic List.mem_cons_self).1
    · rw [Op.runAll_cons hop hpanic] at hr hP ⊢
      have hcall := hP w op r List.mem_cons_self List.mem_cons_self
      have hnext := ih (h.call hcall hop (hr r List.mem_cons_self))
        (fun r' hr' => hr r' (List.mem_cons_of_mem _ hr'))
        fun w'' op' r' hop' hr' => hP w'' op' r' (List.mem_cons_of_mem _ hop')
          (List.mem_cons_of_mem _ hr')
      rw [List.append_assoc] at hnext
      exact hnext

theorem Session.runAll (h : Session (fun _ _ _ => True) o calls w) (ops : List Op)
    (hr : ∀ r ∈ (Op.runAll ops w).1, Returned r) :
    Session (fun _ _ _ => True) o (calls ++ ops.zip (Op.runAll ops w).1) (Op.runAll ops w).2 :=
  h.runAllOf ops hr fun _ _ _ _ _ => trivial

theorem Session.runAllOk
    (h : Session (fun _ op res => (∃ reply, res = .ok reply) ∧ op.Keeps K o) o calls w)
    {ops : List Op} (hK : ∀ op ∈ ops, op.Keeps K o)
    (hok : (Op.runAll ops w).1.all (·.isOk) = true) :
    Session (fun _ op res => (∃ reply, res = .ok reply) ∧ op.Keeps K o) o
      (calls ++ ops.zip (Op.runAll ops w).1) (Op.runAll ops w).2 := by
  have hreply : ∀ r ∈ (Op.runAll ops w).1, ∃ reply, r = .ok reply := by
    intro r hr
    have hisOk := List.all_eq_true.mp hok r hr
    rcases r with reply | e | _
    · exact ⟨reply, rfl⟩
    · cases hisOk
    · cases hisOk
  refine h.runAllOf ops (fun r hr => ?_) fun _ op r hop hr => ⟨hreply r hr, hK op hop⟩
  obtain ⟨reply, rfl⟩ := hreply r hr
  exact returned_of_ok rfl

end Writer
end
end Mcap

import Mcap.WriterRuns

/-! # Conflicting schemas and channels

`write` registers the schema and the channel of a message under the ids they carry.  An
id that is registered with another content is a conflict, to be reported as an error that
leaves nothing written.

The lookup for a conflict goes from the content to its canonical id and expects to find
one.  A content that was never seen has none: `write` then panics.  And a schema that is
new is written before the channel is looked at.  `conflicts_iff` says exactly when `write`
does what it should.
-/
namespace Mcap
namespace Writer
variable {σ : Type} {w w' : Writer σ Stream} {schema : Schema} {message : Message}

/-- The schema carries an id that is registered with another content. -/
def SchemaClash (w : Writer σ Stream) (schema : Option Schema) : Prop :=
  ∃ s c, schema = some s ∧ w.allSchemaIds[s.id]? = some c ∧
    w.canonicalSchemas.getByRight c ≠ some s.content

/-- The channel carries an id that is registered with another content. -/
def ChannelClash (w : Writer σ Stream) (channel : Channel) : Prop :=
  ∃ c, w.allChannelIds[channel.id]? = some c ∧
    w.canonicalChannels.getByRight c ≠ some channel.content

/-- The two errors for a conflict. -/
def IsConflict (e : McapError) : Prop :=
  (∃ name, e = .conflictingSchemas name) ∨ ∃ topic, e = .conflictingChannels topic

/-- **Conflicts are reported**: `write` does not panic, its error says which of the two
conflicts there is, and a message with a conflict leaves no record and no channel
behind. -/
structure ReportsConflicts [Encoders σ] (w : Writer σ Stream) (message : Message) : Prop where
  ne_panic : (write message w).1 ≠ .panic
  schemas : (∃ name, (write message w).1 = .err (.conflictingSchemas name)) ↔
    w.SchemaClash message.channel.schema
  channels : ¬ w.SchemaClash message.channel.schema →
    ((∃ topic, (write message w).1 = .err (.conflictingChannels topic)) ↔
      w.ChannelClash message.channel)
  unchanged : ∀ e, (write message w).1 = .err e → IsConflict e →
    (write message w).2.writer = w.writer ∧
      (write message w).2.canonicalChannels = w.canonicalChannels ∧
      (write message w).2.allChannelIds = w.allChannelIds

/-- **When conflicts are reported**: a conflicting schema has a content that was seen
before; a conflicting channel too, and its schema is registered already; and without a
conflict the writer takes records. -/
def Handles (w : Writer σ Stream) (message : Message) : Prop :=
  (w.SchemaClash message.channel.schema ∧
      ∀ s, message.channel.schema = some s → w.canonicalSchemas.getByLeft s.content ≠ none) ∨
    (¬ w.SchemaClash message.channel.schema ∧ w.ChannelClash message.channel ∧
      w.canonicalChannels.getByLeft message.channel.content ≠ none ∧
      ∀ s, message.channel.schema = some s → w.allSchemaIds[s.id]? ≠ none) ∨
    (¬ w.SchemaClash message.channel.schema ∧ ¬ w.ChannelClash message.channel ∧ w.Usable)

theorem not_isConflict_of_refused {e : McapError} (h : w.Refused e) : ¬ IsConflict e := by
  rintro (⟨name, rfl⟩ | ⟨topic, rfl⟩) <;> rcases h with ⟨-, h⟩ | ⟨-, h⟩ | ⟨i, h⟩ <;> cases h

theorem Writes.not_conflict {α : Type} {x : Res McapError α × Writer σ Stream} (h : Writes w x) :
    x.1.Raises (¬ IsConflict ·) := by
  have hr := h.raises
  cases hx : x.1 with
  | ok a => trivial
  | err e =>
    rw [hx] at hr
    exact not_isConflict_of_refused hr
  | panic =>
    rw [hx] at hr
    exact hr

theorem channelClash_iff {channel : Channel} {other : UInt16}
    (hid : w.allChannelIds[channel.id]? = some other) :
    w.ChannelClash channel ↔ w.canonicalChannels.getByLeft channel.content ≠ some other := by
  constructor
  · rintro ⟨c, hc, hne⟩ h
    rw [hid] at hc
    cases hc
    exact hne (BiMap.getByRight_eq_some_iff.mpr h)
  · intro h
    exact ⟨other, hid, fun hr => h (BiMap.getByRight_eq_some_iff.mp hr)⟩

theorem schemaClash_iff {other : UInt16} (hid : w.allSchemaIds[schema.id]? = some other) :
    w.SchemaClash (some schema) ↔ w.canonicalSchemas.getByLeft schema.content ≠ some other := by
  constructor
  · rintro ⟨s, c, h, hc, hne⟩ hl
    cases h
    rw [hid] at hc
    cases hc
    exact hne (BiMap.getByRight_eq_some_iff.mpr hl)
  · intro h
    exact ⟨schema, other, rfl, hid, fun hr => h (BiMap.getByRight_eq_some_iff.mp hr)⟩

theorem not_schemaClash_of_new (hid : w.allSchemaIds[schema.id]? = none) :
    ¬ w.SchemaClash (some schema) := by
  rintro ⟨s, c, h, hc, -⟩
  cases h
  rw [hid] at hc
  cases hc

variable [Encoders σ]

/-! ## The channel and the message -/

/-- What `write` does once the schema is registered. -/
def writeRest (message : Message) : Exec (Writer σ Stream) McapError Unit := do
  registerChannel message.channel
  writeToKnownChannel
    { channelId := message.channel.id
      sequence := message.sequence
      logTime := message.logTime
      publishTime := message.publishTime } message.data

theorem writeToKnownChannel_raises {header : MessageHeader} {data : Bytes} (hu : w.Usable)
    (hp : w.Placed) : (writeToKnownChannel header data w).1.Raises (¬ IsConflict ·) := by
  by_cases hk : w.allChannelIds.contains header.channelId = true
  · rw [writeToKnownChannel_run hk]
    exact (rollChunk_writeMessage_writes (w := countMessage header w) hu hp).not_conflict
  · rw [writeToKnownChannel, Exec.bind_ok (Exec.get_run w), if_pos (Bool.eq_false_iff.mpr hk)]
    rintro (⟨name, h⟩ | ⟨topic, h⟩) <;> cases h

omit [Encoders σ] in
theorem Writes.bind_raises {x : Exec (Writer σ Stream) McapError Unit}
    {f : Unit → Exec (Writer σ Stream) McapError Unit} {p : McapError → Prop}
    (hp : ∀ (w' : Writer σ Stream) (e), w'.Refused e → p e) (hx : Writes w (x w))
    (hf : ∀ w', x w = (.ok (), w') → w'.Usable → w'.Placed → (f () w').1.Raises p) :
    ((x >>= f) w).1.Raises p := by
  have hr := hx.raises
  rw [Exec.bind_run]
  rcases h : x w with ⟨a | e | _, w'⟩ <;> rw [h] at hr hx
  · exact hf w' h (hx.usable a rfl) hx.placed
  · exact hp w e hr
  · exact hr

theorem writeRest_raises (hs : w.Sound) (hu : w.Usable)
    (hclash : ¬ w.ChannelClash message.channel) :
    (writeRest message w).1.Raises (¬ IsConflict ·) := by
  cases hid : w.allChannelIds[message.channel.id]? with
  | some other =>
    have hc : w.canonicalChannels.getByLeft message.channel.content = some other := by
      rw [channelClash_iff hid] at hclash
      exact not_not.mp hclash
    have hrun := registerChannel_taken hid hc
    rw [if_neg (by simp)] at hrun
    rw [writeRest, Exec.bind_ok hrun]
    exact writeToKnownChannel_raises hu hs.placed
  | none =>
    have hgo : ∀ {w₁ : Writer σ Stream}, w₁.Sound → w₁.Usable →
        registerChannel message.channel w =
          writeChannel message.channel.id message.channel.content w₁ →
        (writeRest message w).1.Raises (¬ IsConflict ·) := by
      intro w₁ hs₁ hu₁ hrun
      have hw := writeDefinition_writes (written_channel message.channel.content
        message.channel.id) hu₁ hs₁.placed
      rw [writeRest, Exec.bind_run, hrun, ← Exec.bind_run]
      exact Writes.bind_raises (x := writeChannel message.channel.id message.channel.content)
        (fun _ _ => not_isConflict_of_refused) hw
        fun w' _ hu' hp' => writeToKnownChannel_raises hu' hp'
    cases hc : w.canonicalChannels.getByLeft message.channel.content with
    | some id =>
      obtain ⟨hs', hrun⟩ := registerChannel_known hs hid hc
      exact hgo hs' hu hrun
    | none =>
      obtain ⟨canonicalChannels, -, hs', hrun⟩ := registerChannel_new hs hid hc
      exact hgo hs' hu hrun

theorem writeRest_panic (hs : w.Sound) (hu : ¬ w.Usable)
    (hclash : ¬ w.ChannelClash message.channel) : (writeRest message w).1 = .panic := by
  cases hid : w.allChannelIds[message.channel.id]? with
  | some other =>
    have hc : w.canonicalChannels.getByLeft message.channel.content = some other := by
      rw [channelClash_iff hid] at hclash
      exact not_not.mp hclash
    have hrun := registerChannel_taken hid hc
    rw [if_neg (by simp)] at hrun
    rw [writeRest, Exec.bind_ok hrun,
      writeToKnownChannel_run ((BTreeMap.contains_iff _ _).mpr ⟨other, hid⟩),
      rollChunk_writeMessage_panic (w := countMessage _ w) hu]
  | none =>
    cases hc : w.canonicalChannels.getByLeft message.channel.content with
    | some id =>
      obtain ⟨-, hrun⟩ := registerChannel_known hs hid hc
      rw [writeRest, Exec.bind_panic (hrun.trans (writeDefinition_panic hu))]
    | none =>
      obtain ⟨canonicalChannels, -, -, hrun⟩ := registerChannel_new hs hid hc
      rw [writeRest, Exec.bind_panic (hrun.trans (writeDefinition_panic hu))]

theorem writeRest_clash (hclash : w.ChannelClash message.channel) :
    writeRest message w =
      (if w.canonicalChannels.getByLeft message.channel.content = none then .panic
        else .err (.conflictingChannels message.channel.topic), w) := by
  obtain ⟨other, hid, -⟩ := id hclash
  rw [channelClash_iff hid] at hclash
  cases hc : w.canonicalChannels.getByLeft message.channel.content with
  | none =>
    rw [writeRest, Exec.bind_panic (registerChannel_panic hid hc), if_pos rfl]
  | some id =>
    have hrun := registerChannel_taken hid hc
    have hne : id ≠ other := by
      rintro rfl
      exact hclash hc
    rw [if_pos hne] at hrun
    rw [writeRest, Exec.bind_err hrun, if_neg (by simp)]

/-! ## A record that is written shows -/

theorem count_of_writeAll {V : Type} [Write V] {c c' : CountingCrcWriter V} {b : Bytes}
    (h : writeAll c b = .ok c') : c'.count = c.count + b.length := by
  rw [CountingCrcWriter.writeAll_eq] at h
  split at h
  · cases h
    rfl
  · cases h

theorem chunkRecord_writer_ne {r : Record} {b : Bytes} (hr : r.written = some b) (hb : b ≠ [])
    (hu : w.Usable) (huse : w.options.useChunks = true) (h : chunkRecord r w = (.ok (), w')) :
    w'.writer ≠ w.writer := by
  obtain ⟨_, w₁, hstart, hon⟩ := Exec.bind_eq_ok.mp h
  -- the count of the open chunk grows
  obtain ⟨c₁, c', hc₁, hwrite, rfl⟩ := onChunk_eq_ok.mp hon
  simp only [ChunkWriter.writeRecord, writeRecord, hr] at hwrite
  rcases hw : Mcap.write c₁.compressor b with comp | ⟨e, comp⟩ | _ <;> rw [hw] at hwrite <;>
    cases hwrite
  have hcount := count_of_writeAll (write_eq_ok.mp hw)
  have hpos : 0 < b.length := List.length_pos_iff.mpr hb
  intro heq
  have hsame : startChunk w = (.ok (), w) := by
    rw [startChunk, Exec.bind_ok (assertNotFinished_run hu.2), Exec.bind_ok (Exec.get_run w),
      ← heq]
    simp only [huse]
    rfl
  rw [hsame] at hstart
  cases hstart
  rw [hc₁] at heq
  have hc : comp.count = c₁.compressor.count :=
    congrArg (fun c => c.compressor.count) (WriteMode.chunk.inj (Option.some.inj heq))
  omega

theorem topRecord_writer_ne {r : Record} {b : Bytes} (hr : r.written = some b) (hb : b ≠ [])
    (hu : w.Usable) (h : topRecord r w = (.ok (), w')) : w'.writer ≠ w.writer := by
  obtain ⟨_, w₁, hfinish, hon⟩ := Exec.bind_eq_ok.mp h
  obtain ⟨c₁, c', hc₁, hwrite, rfl⟩ := onRaw_eq_ok.mp hon
  simp only [writeRecord, hr] at hwrite
  rcases hw : Mcap.write c₁ b with c' | ⟨e, c'⟩ | _ <;> rw [hw] at hwrite <;> cases hwrite
  have hcount := count_of_writeAll (write_eq_ok.mp hw)
  have hpos : 0 < b.length := List.length_pos_iff.mpr hb
  intro heq
  have hsame : finishChunk w = (.ok (), w) := by
    rw [finishChunk, Exec.bind_ok (assertNotFinished_run hu.2), Exec.bind_ok (Exec.get_run w),
      ← heq]
    rfl
  rw [hsame] at hfinish
  cases hfinish
  rw [hc₁] at heq
  cases heq
  omega

theorem writeSchema_writer_ne {id : UInt16} {content : SchemaContent} (hu : w.Usable)
    (h : writeSchema id content w = (.ok (), w')) : w'.writer ≠ w.writer := by
  rw [writeSchema, writeDefinition, Exec.bind_ok (Exec.get_run w)] at h
  split at h
  · rename_i huse
    exact chunkRecord_writer_ne rfl (by simp [opAndLen]) hu huse h
  · exact topRecord_writer_ne rfl (by simp [opAndLen]) hu h

/-! ## The whole call -/

theorem write_none (h : message.channel.schema = none) :
    write message w = writeRest message w := by
  rw [write, h]
  rfl

theorem write_some (h : message.channel.schema = some schema) :
    write message w = (registerSchema schema >>= fun _ => writeRest message) w := by
  rw [write, h]
  rfl

theorem reportsConflicts_iff_of_raises (hs : ¬ w.SchemaClash message.channel.schema)
    (hr : (write message w).1.Raises (¬ IsConflict ·)) :
    ReportsConflicts w message ↔ ¬ w.ChannelClash message.channel := by
  have hno : ∀ e, (write message w).1 = .err e → ¬ IsConflict e := by
    intro e he
    rw [he] at hr
    exact hr
  have hnoSchema : ¬ ∃ name, (write message w).1 = .err (.conflictingSchemas name) :=
    fun ⟨name, h⟩ => hno _ h (.inl ⟨name, rfl⟩)
  have hnoChannel : ¬ ∃ topic, (write message w).1 = .err (.conflictingChannels topic) :=
    fun ⟨topic, h⟩ => hno _ h (.inr ⟨topic, rfl⟩)
  constructor
  · intro h hc
    exact hnoChannel ((h.channels hs).mpr hc)
  · intro hc
    exact ⟨hr.ne_panic, ⟨fun h => absurd h hnoSchema, fun h => absurd h hs⟩,
      fun _ => ⟨fun h => absurd h hnoChannel, fun h => absurd h hc⟩,
      fun e he hconf => absurd hconf (hno e he)⟩

theorem reportsConflicts_of_rest (hs : w.Sound) (hschema : ¬ w.SchemaClash message.channel.schema)
    (hreg : ∀ s, message.channel.schema = some s → w.allSchemaIds[s.id]? ≠ none)
    (hrun : write message w = writeRest message w) :
    ReportsConflicts w message ↔ w.Handles message := by
  by_cases hclash : w.ChannelClash message.channel
  · have hrest := writeRest_clash hclash
    by_cases hseen : w.canonicalChannels.getByLeft message.channel.content = none
    · rw [if_pos hseen] at hrest
      constructor
      · intro h
        exact absurd (by rw [hrun, hrest]) h.ne_panic
      · rintro (⟨h, -⟩ | ⟨-, -, h, -⟩ | ⟨-, h, -⟩)
        · exact absurd h hschema
        · exact absurd hseen h
        · exact absurd hclash h
    · rw [if_neg hseen] at hrest
      refine ⟨fun _ => .inr (.inl ⟨hschema, hclash, hseen, hreg⟩), fun _ => ?_⟩
      have hw := hrun.trans hrest
      refine ⟨by rw [hw]; simp, ?_, fun _ => ?_, fun e _ _ => by rw [hw]; exact ⟨rfl, rfl, rfl⟩⟩
      · rw [hw]
        exact ⟨fun ⟨name, h⟩ => (by cases h), fun h => absurd h hschema⟩
      · rw [hw]
        exact ⟨fun _ => hclash, fun _ => ⟨_, rfl⟩⟩
  · by_cases hu : w.Usable
    · rw [reportsConflicts_iff_of_raises hschema (by rw [hrun]; exact writeRest_raises hs hu hclash)]
      exact ⟨fun _ => .inr (.inr ⟨hschema, hclash, hu⟩), fun _ => hclash⟩
    · constructor
      · intro h
        exact absurd (by rw [hrun, writeRest_panic hs hu hclash]) h.ne_panic
      · rintro (⟨h, -⟩ | ⟨-, h, -⟩ | ⟨-, -, h⟩)
        · exact absurd h hschema
        · exact absurd h hclash
        · exact absurd h hu

theorem reportsConflicts_of_new (hsome : message.channel.schema = some schema)
    (hid : w.allSchemaIds[schema.id]? = none) {w₁ : Writer σ Stream} (hs₁ : w₁.Sound)
    (hmode : w₁.writer = w.writer) (hfin : w₁.finishedSummary = w.finishedSummary)
    (hchannels : w₁.canonicalChannels = w.canonicalChannels ∧ w₁.allChannelIds = w.allChannelIds)
    (hrun : registerSchema schema w = writeSchema schema.id schema.content w₁) :
    ReportsConflicts w message ↔ w.Handles message := by
  have hschema : ¬ w.SchemaClash message.channel.schema := by
    rw [hsome]
    exact not_schemaClash_of_new hid
  have hwrite : write message w =
      (writeSchema schema.id schema.content >>= fun _ => writeRest message) w₁ := by
    rw [write_some hsome, Exec.bind_run, hrun, ← Exec.bind_run]
  have husable : w₁.Usable ↔ w.Usable := by
    unfold Usable
    rw [hmode, hfin]
  have hhandles : w.Handles message ↔ ¬ w.ChannelClash message.channel ∧ w.Usable := by
    constructor
    · rintro (⟨h, -⟩ | ⟨-, -, -, h⟩ | ⟨-, h⟩)
      · exact absurd h hschema
      · exact absurd hid (h schema hsome)
      · exact h
    · exact fun h => .inr (.inr ⟨hschema, h⟩)
  rw [hhandles]
  by_cases hu : w.Usable
  swap
  · refine ⟨fun h => ?_, fun h => absurd h.2 hu⟩
    have hpanic : writeSchema schema.id schema.content w₁ = (.panic, w₁) :=
      writeDefinition_panic (fun h => hu (husable.mp h))
    exact absurd (by rw [hwrite, Exec.bind_panic hpanic]) h.ne_panic
  have hw₁ := writeDefinition_writes (written_schema schema.content schema.id)
    (husable.mpr hu) hs₁.placed
  by_cases hclash : w.ChannelClash message.channel
  · refine ⟨fun h => ?_, fun h => absurd hclash h.1⟩
    -- the schema is written, or it is refused for another reason
    rcases hsw : writeSchema schema.id schema.content w₁ with ⟨a | e | _, w₂⟩
    · have hcore : w₂.core = w₁.core := by
        have hc := hw₁.core
        rw [show writeDefinition (schema.content.record schema.id) w₁ = (.ok a, w₂) from hsw] at hc
        exact hc
      have hcanon : w₂.canonicalChannels = w.canonicalChannels :=
        (congrArg canonicalChannels hcore).trans hchannels.1
      have hids : w₂.allChannelIds = w.allChannelIds :=
        (congrArg allChannelIds hcore).trans hchannels.2
      have hclash₂ : w₂.ChannelClash message.channel := by
        obtain ⟨c, hc, hne⟩ := hclash
        exact ⟨c, by rw [hids]; exact hc, by rw [hcanon]; exact hne⟩
      have hrest := writeRest_clash hclash₂
      rw [Exec.bind_ok hsw, hrest] at hwrite
      split at hwrite
      · exact absurd (by rw [hwrite]) h.ne_panic
      · have hsame := (h.unchanged _ (by rw [hwrite]) (.inr ⟨_, rfl⟩)).1
        rw [hwrite, ← hmode] at hsame
        exact absurd hsame (writeSchema_writer_ne (husable.mpr hu) hsw)
    · have hr := hw₁.not_conflict
      rw [show writeDefinition (schema.content.record schema.id) w₁ = (.err e, w₂) from hsw] at hr
      obtain ⟨topic, htopic⟩ := (h.channels hschema).mpr hclash
      rw [hwrite, Exec.bind_err hsw] at htopic
      cases htopic
      exact absurd (.inr ⟨topic, rfl⟩) hr
    · exact absurd (by rw [hwrite, Exec.bind_panic hsw]) h.ne_panic
  · rw [reportsConflicts_iff_of_raises hschema]
    · exact ⟨fun _ => ⟨hclash, hu⟩, fun _ => hclash⟩
    · rw [hwrite]
      refine Writes.bind_raises (x := writeSchema schema.id schema.content)
        (fun _ _ => not_isConflict_of_refused) hw₁ fun w₂ hsw hu₂ hp₂ => ?_
      have hsound := hw₁.sound hs₁
      have hcore := hw₁.core
      rw [show writeDefinition (schema.content.record schema.id) w₁ = (.ok (), w₂) from hsw]
        at hsound hcore
      refine writeRest_raises hsound hu₂ ?_
      rintro ⟨c, hc, hne⟩
      have hcanon : w₂.canonicalChannels = w.canonicalChannels :=
        (congrArg canonicalChannels hcore).trans hchannels.1
      have hids : w₂.allChannelIds = w.allChannelIds :=
        (congrArg allChannelIds hcore).trans hchannels.2
      rw [hids] at hc
      rw [hcanon] at hne
      exact hclash ⟨c, hc, hne⟩

/-- **When conflicts are reported.**  In every state a writer can reach, `write` reports
the conflicts of a message as it should exactly if a conflicting content was seen before,
the schema of a conflicting channel is registered, and a writer that gets a message
without a conflict takes records. -/
theorem conflicts_iff (h : Reaches w) (message : Message) :
    ReportsConflicts w message ↔ w.Handles message := by
  have hs := h.sound
  cases hsome : message.channel.schema with
  | none =>
    refine reportsConflicts_of_rest hs ?_ (fun s h => ?_) (write_none hsome)
    · rintro ⟨s, c, h, -⟩
      rw [hsome] at h
      cases h
    · rw [hsome] at h
      cases h
  | some schema =>
    cases hid : w.allSchemaIds[schema.id]? with
    | none =>
      cases hc : w.canonicalSchemas.getByLeft schema.content with
      | some id =>
        obtain ⟨hs₁, hrun⟩ := registerSchema_known hs hid hc
        exact reportsConflicts_of_new hsome hid hs₁ rfl rfl ⟨rfl, rfl⟩ hrun
      | none =>
        obtain ⟨canonicalSchemas, -, hs₁, hrun⟩ := registerSchema_new hs hid hc
        exact reportsConflicts_of_new hsome hid hs₁ rfl rfl ⟨rfl, rfl⟩ hrun
    | some other =>
      have hreg : ∀ s, message.channel.schema = some s → w.allSchemaIds[s.id]? ≠ none := by
        intro s h
        rw [hsome] at h
        cases h
        simp [hid]
      by_cases heq : w.canonicalSchemas.getByLeft schema.content = some other
      · refine reportsConflicts_of_rest hs ?_ hreg ?_
        · rw [hsome, schemaClash_iff hid]
          exact not_not_intro heq
        · have hrun := registerSchema_taken hid heq
          rw [if_neg (by simp)] at hrun
          rw [write_some hsome, Exec.bind_ok hrun]
      · have hclash : w.SchemaClash message.channel.schema := by
          rw [hsome, schemaClash_iff hid]
          exact heq
        have hhandles : w.Handles message ↔
            w.canonicalSchemas.getByLeft schema.content ≠ none := by
          constructor
          · rintro (⟨-, h⟩ | ⟨h, -⟩ | ⟨h, -⟩)
            · exact h schema hsome
            · exact absurd hclash h
            · exact absurd hclash h
          · intro h
            refine .inl ⟨hclash, fun s hsome' => ?_⟩
            rw [hsome] at hsome'
            cases hsome'
            exact h
        rw [hhandles]
        cases hc : w.canonicalSchemas.getByLeft schema.content with
        | none =>
          refine ⟨fun h => ?_, fun h => absurd rfl h⟩
          have hrun := registerSchema_panic hid hc
          exact absurd (by rw [write_some hsome, Exec.bind_panic hrun]) h.ne_panic
        | some id =>
          refine ⟨fun _ => by simp, fun _ => ?_⟩
          have hrun := registerSchema_taken hid hc
          rw [if_pos (by rintro rfl; exact heq hc)] at hrun
          have hw : write message w = (.err (.conflictingSchemas schema.name), w) := by
            rw [write_some hsome, Exec.bind_err hrun]
          refine ⟨by rw [hw]; simp, ?_, fun hn => absurd hclash hn,
            fun e _ _ => by rw [hw]; exact ⟨rfl, rfl, rfl⟩⟩
          rw [hw]
          exact ⟨fun _ => hclash, fun _ => ⟨_, rfl⟩⟩

end Writer

/-! ## A conflict that is not reported -/

/-- A build without the compression crates. -/
instance : Encoders Empty where
  newZstd _ _ := .error ⟨0⟩
  newLz4 _ := .error ⟨0⟩
  write e := nomatch e
  finish e := nomatch e

/-- Records one after the other, without chunks and without a summary. -/
def plainOptions : WriteOptions where
  compression := none
  profile := ""
  library := ""
  chunkSize := none
  useChunks := false
  disableSeeking := false
  emitStatistics := false
  emitSummaryOffsets := false
  emitMessageIndexes := false
  emitChunkIndexes := false
  emitAttachmentIndexes := false
  emitMetadataIndexes := false
  repeatChannels := false
  repeatSchemas := false
  calculateChunkCrcs := false
  calculateDataSectionCrc := false
  calculateSummarySectionCrc := false
  calculateAttachmentCrcs := false
  compressionLevel := 0
  compressionThreads := 0

/-- A message on a channel with the schema 1 of the given name. -/
def schemaMessage (name : String) : Message where
  channel :=
    { id := 1
      topic := "t"
      schema := some { id := 1, name, encoding := "", data := [] }
      messageEncoding := ""
      metadata := ∅ }
  sequence := 0
  logTime := 0
  publishTime := 0
  data := []

namespace Writer

theorem conflicts_iff_fresh : ∃ w : Writer Empty Stream,
    withOptions Stream.empty plainOptions = .ok w ∧
      (ReportsConflicts w (schemaMessage "a") ↔ w.Handles (schemaMessage "a")) :=
  ⟨_, rfl, conflicts_iff
    (.start (show withOptions Stream.empty plainOptions = .ok _ from rfl)) _⟩

/-- **A conflict that panics**: the schema 1 is written, and then another schema 1 that
was never seen. -/
theorem conflict_panics : ∃ w : Writer Empty Stream,
    withOptions Stream.empty plainOptions = .ok w ∧
      (Op.runAll [.write (schemaMessage "a")] w).1 = [.ok .done] ∧
      Reaches (Op.runAll [.write (schemaMessage "a")] w).2 ∧
      (write (schemaMessage "b") (Op.runAll [.write (schemaMessage "a")] w).2).1 = .panic ∧
      ¬ ReportsConflicts (Op.runAll [.write (schemaMessage "a")] w).2 (schemaMessage "b") := by
  refine ⟨_, rfl, ?_, ?_, ?_, ?_⟩
  · decide +kernel
  · refine Reaches.runAll (.start (show withOptions Stream.empty plainOptions = .ok _ from rfl)) ?_
    decide +kernel
  · decide +kernel
  · intro h
    exact h.ne_panic (by decide +kernel)

end Writer
end Mcap
